/-
# Letter case

Lower and upper case of texts, and when two characters are the same up to case.
A character is mapped by runs of code points with a constant shift; the
characters with a longer upper case, and the classes of more than one upper and
one lower form, are listed.
-/
import SourceAudit.Text.Classes

namespace SourceAudit.Text

/-- `count` code points from `first`, `stride` apart, that are all moved by `shift`. -/
structure CaseRun where
  first : Nat
  count : Nat
  stride : Nat
  shift : Int

/-- Reads runs of four numbers: how far the run starts after the start of the one before, its count,
its stride and its shift, which is doubled, a negative one as its odd predecessor. -/
def CaseRun.listOf (from' : Nat) : List Nat → List CaseRun
  | gap :: count :: stride :: shift :: rest =>
    let moved : Int := if shift % 2 = 0 then (shift / 2 : Nat) else -((shift / 2 : Nat) + 1 : Int)
    ⟨from' + gap, count, stride, moved⟩ :: CaseRun.listOf (from' + gap) rest
  | _ => []

/-- Where the code point `n` goes under this run, if the run covers it. -/
def CaseRun.image? (r : CaseRun) (n : Nat) : Option Char :=
  if r.first ≤ n && (n - r.first) % r.stride == 0 && (n - r.first) / r.stride < r.count then
    some (Char.ofNat (n + r.shift).toNat)
  else none

def CaseRun.back (r : CaseRun) : CaseRun :=
  ⟨(r.first + r.shift).toNat, r.count, r.stride, -r.shift⟩

/-- The band of scripts without case, from `U+2D2E` to `U+A63F`: a short way past the runs. -/
def isCaseless (c : Char) : Bool :=
  0x2d2e ≤ c.toNat && c.toNat < 0xa640

/-- The character that the first covering run gives, else the character itself. -/
def mapByRuns (runs : List CaseRun) (c : Char) : Char :=
  if isCaseless c then c else (runs.findSome? (·.image? c.toNat)).getD c

def lowerRuns : List CaseRun := CaseRun.listOf 0 [
  192, 23, 1, 64, 24, 7, 1, 64, 40, 24, 2, 2, 50, 3, 2, 2, 7, 8, 2, 2, 17, 23, 2, 2, 46, 1, 1, 241, 1, 3, 2, 2,
  8, 1, 1, 420, 1, 2, 2, 2, 4, 1, 1, 412, 1, 1, 1, 2, 2, 2, 1, 410, 2, 1, 1, 2, 3, 1, 1, 158, 1, 1, 1, 404, 1,
  1, 1, 406, 1, 1, 1, 2, 2, 1, 1, 410, 1, 1, 1, 414, 2, 1, 1, 422, 1, 1, 1, 418, 1, 1, 1, 2, 4, 1, 1, 422, 1,
  1, 1, 426, 2, 1, 1, 428, 1, 3, 2, 2, 6, 1, 1, 436, 1, 1, 1, 2, 2, 1, 1, 436, 3, 1, 1, 2, 2, 1, 1, 436, 1, 1,
  1, 2, 2, 2, 1, 434, 2, 2, 2, 2, 4, 1, 1, 438, 1, 1, 1, 2, 4, 1, 1, 2, 8, 1, 1, 4, 1, 1, 1, 2, 2, 1, 1, 4, 1,
  1, 1, 2, 2, 1, 1, 4, 1, 9, 2, 2, 19, 9, 2, 2, 19, 1, 1, 4, 1, 2, 2, 2, 4, 1, 1, 193, 1, 1, 1, 111, 1, 20, 2,
  2, 40, 1, 1, 259, 2, 9, 2, 2, 24, 1, 1, 21590, 1, 1, 1, 2, 2, 1, 1, 325, 1, 1, 1, 21584, 3, 1, 1, 2, 2, 1, 1,
  389, 1, 1, 1, 138, 1, 1, 1, 142, 1, 5, 2, 2, 298, 2, 2, 2, 6, 1, 1, 2, 9, 1, 1, 232, 7, 1, 1, 76, 2, 3, 1,
  74, 4, 1, 1, 128, 2, 2, 1, 126, 3, 17, 1, 64, 18, 9, 1, 64, 44, 1, 1, 16, 9, 12, 2, 2, 28, 1, 1, 119, 3, 1,
  1, 2, 2, 1, 1, 13, 1, 1, 1, 2, 3, 3, 1, 259, 3, 16, 1, 160, 16, 32, 1, 64, 80, 17, 2, 2, 42, 27, 2, 2, 54, 1,
  1, 30, 1, 7, 2, 2, 15, 48, 2, 2, 97, 38, 1, 96, 2927, 38, 1, 14528, 39, 1, 1, 14528, 6, 1, 1, 14528, 723, 80,
  1, 77728, 80, 6, 1, 16, 2208, 43, 1, 6015, 45, 3, 1, 6015, 323, 75, 2, 2, 158, 1, 1, 15229, 2, 48, 2, 2, 104,
  8, 1, 15, 16, 6, 1, 15, 16, 8, 1, 15, 16, 8, 1, 15, 16, 6, 1, 15, 17, 4, 2, 15, 15, 8, 1, 15, 32, 8, 1, 15,
  16, 8, 1, 15, 16, 8, 1, 15, 16, 2, 1, 15, 2, 2, 1, 147, 2, 1, 1, 17, 12, 4, 1, 171, 4, 1, 1, 17, 12, 2, 1,
  15, 2, 2, 1, 199, 14, 2, 1, 15, 2, 2, 1, 223, 2, 1, 1, 13, 12, 2, 1, 255, 2, 2, 1, 251, 2, 1, 1, 17, 298, 1,
  1, 15033, 4, 1, 1, 16765, 1, 1, 1, 16523, 7, 1, 1, 56, 46, 16, 1, 32, 35, 1, 1, 2, 819, 26, 1, 52, 1866, 48,
  1, 96, 96, 1, 1, 2, 2, 1, 1, 21485, 1, 1, 1, 7627, 1, 1, 1, 21453, 3, 3, 2, 2, 6, 1, 1, 21559, 1, 1, 1,
  21497, 1, 1, 1, 21565, 1, 1, 1, 21563, 2, 1, 1, 2, 3, 1, 1, 2, 9, 2, 1, 21629, 2, 50, 2, 2, 107, 2, 2, 2, 7,
  1, 1, 2, 31054, 23, 2, 2, 64, 14, 2, 2, 162, 7, 2, 2, 16, 31, 2, 2, 71, 2, 2, 2, 4, 1, 1, 70663, 1, 5, 2, 2,
  13, 1, 1, 2, 2, 1, 1, 84559, 3, 2, 2, 2, 6, 10, 2, 2, 20, 1, 1, 84615, 1, 1, 1, 84637, 1, 1, 1, 84629, 1, 1,
  1, 84609, 1, 1, 1, 84615, 2, 1, 1, 84515, 1, 1, 1, 84563, 1, 1, 1, 84521, 1, 1, 1, 1856, 1, 8, 2, 2, 16, 1,
  1, 95, 1, 1, 1, 84613, 1, 1, 1, 70767, 1, 2, 2, 2, 9, 1, 1, 2, 6, 2, 2, 2, 31, 1, 1, 2, 22316, 26, 1, 64,
  1247, 40, 1, 80, 176, 36, 1, 80, 192, 11, 1, 78, 12, 15, 1, 78, 16, 7, 1, 78, 8, 2, 1, 78, 1772, 51, 1, 128,
  3104, 32, 1, 64, 21920, 32, 1, 64, 31424, 34, 1, 68]

/-- Runs of characters outside ASCII that are not just sent back to where a lower case form comes
from. -/
def ownUpperRuns : List CaseRun := CaseRun.listOf 0 [
  181, 1, 1, 1486, 42, 1, 1, 0, 82, 1, 1, 463, 78, 1, 1, 599, 70, 1, 1, 1, 3, 1, 1, 1, 3, 1, 1, 1, 39, 1, 1, 1,
  339, 1, 1, 168, 125, 1, 1, 61, 14, 1, 1, 123, 1, 1, 1, 113, 4, 1, 1, 93, 1, 1, 1, 107, 26, 1, 1, 171, 1, 1,
  1, 159, 4, 1, 1, 191, 6283, 1, 1, 12507, 1, 1, 1, 12505, 1, 1, 1, 12487, 1, 2, 1, 12483, 2, 1, 1, 12485, 1,
  1, 1, 12471, 1, 1, 1, 12361, 1, 1, 1, 70532, 531, 1, 1, 117, 229, 8, 1, 0, 16, 8, 1, 0, 16, 8, 1, 0, 19, 1,
  1, 0, 11, 1, 1, 14409, 5, 1, 1, 0, 48, 1, 1, 0]

/-- Runs of characters outside ASCII with an upper case form of one character. -/
def upperRuns : List CaseRun :=
  ownUpperRuns ++ lowerRuns.map CaseRun.back

/-- Characters whose upper case form is longer than one character, each followed by that form. -/
def longUpper : List (List Char) := words <|
  "ßSS ŉʼN ǰJ\u030c ΐΙ\u0308\u0301 ΰΥ\u0308\u0301 ևԵՒ ẖH\u0331 ẗT\u0308 ẘW\u030a " ++
  "ẙY\u030a ẚAʾ ὐΥ\u0313 ὒΥ\u0313\u0300 ὔΥ\u0313\u0301 ὖΥ\u0313\u0342 ᾀἈΙ ᾁἉΙ ᾂἊΙ ᾃἋΙ " ++
  "ᾄἌΙ ᾅἍΙ ᾆἎΙ ᾇἏΙ ᾈἈΙ ᾉἉΙ ᾊἊΙ ᾋἋΙ ᾌἌΙ ᾍἍΙ ᾎἎΙ ᾏἏΙ ᾐἨΙ ᾑἩΙ ᾒἪΙ ᾓἫΙ ᾔἬΙ ᾕἭΙ ᾖἮΙ ᾗἯΙ ᾘἨΙ " ++
  "ᾙἩΙ ᾚἪΙ ᾛἫΙ ᾜἬΙ ᾝἭΙ ᾞἮΙ ᾟἯΙ ᾠὨΙ ᾡὩΙ ᾢὪΙ ᾣὫΙ ᾤὬΙ ᾥὭΙ ᾦὮΙ ᾧὯΙ ᾨὨΙ ᾩὩΙ ᾪὪΙ ᾫὫΙ ᾬὬΙ ᾭὭΙ " ++
  "ᾮὮΙ ᾯὯΙ ᾲᾺΙ ᾳΑΙ ᾴΆΙ ᾶΑ\u0342 ᾷΑ\u0342Ι ᾼΑΙ ῂῊΙ ῃΗΙ ῄΉΙ ῆΗ\u0342 ῇΗ\u0342Ι ῌΗΙ " ++
  "ῒΙ\u0308\u0300 ΐΙ\u0308\u0301 ῖΙ\u0342 ῗΙ\u0308\u0342 ῢΥ\u0308\u0300 ΰΥ\u0308\u0301 " ++
  "ῤΡ\u0313 ῦΥ\u0342 ῧΥ\u0308\u0342 ῲῺΙ ῳΩΙ ῴΏΙ ῶΩ\u0342 ῷΩ\u0342Ι ῼΩΙ ﬀFF ﬁFI ﬂFL ﬃFFI " ++
  "ﬄFFL ﬅST ﬆST ﬓՄՆ ﬔՄԵ ﬕՄԻ ﬖՎՆ ﬗՄԽ"

/-- The classes of characters that differ in case only and are not just a pair. -/
def wideCaseClasses : List (List Char) := [
  ['I', 'i', 'İ', 'ı'], ['K', 'k', 'K'], ['S', 's', 'ſ'], ['µ', 'Μ', 'μ'], ['Å', 'å', 'Å'], ['ß', 'ẞ'],
  ['Ǆ', 'ǅ', 'ǆ'], ['Ǉ', 'ǈ', 'ǉ'], ['Ǌ', 'ǋ', 'ǌ'], ['Ǳ', 'ǲ', 'ǳ'], ['\u0345', 'Ι', 'ι', 'ι'], ['ΐ', 'ΐ'],
  ['Β', 'β', 'ϐ'], ['Ε', 'ε', 'ϵ'], ['Θ', 'θ', 'ϑ', 'ϴ'], ['Κ', 'κ', 'ϰ'], ['Π', 'π', 'ϖ'], ['Ρ', 'ρ', 'ϱ'],
  ['Σ', 'ς', 'σ'], ['Φ', 'φ', 'ϕ'], ['Ω', 'ω', 'Ω'], ['ΰ', 'ΰ'], ['В', 'в', 'ᲀ'], ['Д', 'д', 'ᲁ'],
  ['О', 'о', 'ᲂ'], ['С', 'с', 'ᲃ'], ['Т', 'т', 'ᲄ', 'ᲅ'], ['Ъ', 'ъ', 'ᲆ'], ['Ѣ', 'ѣ', 'ᲇ'], ['ᲈ', 'Ꙋ', 'ꙋ'],
  ['Ṡ', 'ṡ', 'ẛ'], ['ᾀ', 'ᾈ'], ['ᾁ', 'ᾉ'], ['ᾂ', 'ᾊ'], ['ᾃ', 'ᾋ'], ['ᾄ', 'ᾌ'], ['ᾅ', 'ᾍ'], ['ᾆ', 'ᾎ'], ['ᾇ', 'ᾏ'],
  ['ᾐ', 'ᾘ'], ['ᾑ', 'ᾙ'], ['ᾒ', 'ᾚ'], ['ᾓ', 'ᾛ'], ['ᾔ', 'ᾜ'], ['ᾕ', 'ᾝ'], ['ᾖ', 'ᾞ'], ['ᾗ', 'ᾟ'], ['ᾠ', 'ᾨ'],
  ['ᾡ', 'ᾩ'], ['ᾢ', 'ᾪ'], ['ᾣ', 'ᾫ'], ['ᾤ', 'ᾬ'], ['ᾥ', 'ᾭ'], ['ᾦ', 'ᾮ'], ['ᾧ', 'ᾯ'], ['ᾳ', 'ᾼ'], ['ῃ', 'ῌ'],
  ['ῳ', 'ῼ'], ['ﬅ', 'ﬆ']]

def lowerChar (c : Char) : Char :=
  if c.toNat < 128 then (if 'A' ≤ c && c ≤ 'Z' then Char.ofNat (c.toNat + 32) else c)
  else if c == '\u0130' then 'i'
  else mapByRuns lowerRuns c

/-- The upper case form of a character where that is one character, else the character. -/
def upperChar (c : Char) : Char :=
  if c.toNat < 128 then (if 'a' ≤ c && c ≤ 'z' then Char.ofNat (c.toNat - 32) else c)
  else mapByRuns upperRuns c

/-- All characters that are the same as `c` up to case, `c` among them. -/
def caseClass (c : Char) : List Char :=
  if isCaseless c || (c.toNat < 128 && !isAsciiLetter c) then [c]
  else (wideCaseClasses.find? (·.contains c)).getD [c, lowerChar c, upperChar c]

/-- A capital sigma ends a word if a cased character stands before it and none after it, the
characters without weight in between being skipped. `before` is read backwards. -/
def sigmaEndsWord (before after : List Char) : Bool :=
  let skip := List.dropWhile caseIgnorableTable.contains
  let cased (cs : List Char) : Bool := cs.head?.any casedTable.contains
  cased (skip before) && !cased (skip after)

/-- The lower case form of a character between the text `before` it (backwards) and `after` it. -/
def lowerForm (before : List Char) (c : Char) (after : List Char) : List Char :=
  if c == '\u03a3' then (if sigmaEndsWord before after then ['\u03c2'] else ['\u03c3'])
  else if c == '\u0130' then ['i', '\u0307']
  else [lowerChar c]

/-- Lower case of a text: `before` is what was read, `done` its lower case, both backwards. -/
def lowerFrom (before done : List Char) : List Char → List Char
  | [] => done.reverse
  | c :: rest => lowerFrom (c :: before) ((lowerForm before c rest).reverse ++ done) rest

def lower (s : String) : String :=
  String.ofList (lowerFrom [] [] s.toList)

def upperForm (c : Char) : List Char :=
  if c.toNat < 128 then [upperChar c]
  else match longUpper.find? (·.head? == some c) with
    | some (_ :: form) => form
    | _ => [upperChar c]

def upper (s : String) : String :=
  String.ofList (s.toList.flatMap upperForm)

end SourceAudit.Text
