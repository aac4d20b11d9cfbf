/-
# Printed pages

A printed report is one or more documents, each cut into slices of the height of
a page. Every page has a footer with its number and the number of all pages.
-/
import SourceAudit.Pattern.Parser

namespace SourceAudit.Report

inductive Drawing where
  | create (path : String)
  | paper (name : String)
  | resolution (dots : Nat)
  | load (html : String)
  | layOut (width height : Double)
  | newPage
  | save
  | restore
  | shift (x y : Double)
  /-- Draws the part of a document from some height on. -/
  | contents (top width height : Double)
  | pen (color : String)
  | font (family : String) (size : Nat)
  | line (x1 y1 x2 y2 : Double)
  | image (path : String) (x y : Double) (side : Nat)
  | centered (x y width : Double) (height : Nat) (content : String)
  | rightAligned (x y : Double) (width height : Nat) (content : String)
  | finish
deriving DecidableEq

def pageBreak : String := "<div class=\"page-break\"></div>"

def bodyTag : Pattern :=
  .ofText { Pattern.Flags.none with ignoreCase := true } "<body[^>]*>"

/-- A part of a page as a document of its own: the first is closed, and the others get the head of
the page. -/
def closePart (head : String) (part : String × Nat) : String :=
  if part.2 = 0 then part.1 ++ "</body></html>" else head ++ part.1

/-- The documents of a page of HTML; blank ones are left out. -/
def splitPages (html : String) : List String :=
  if !Text.contains html pageBreak then [html]
  else
    let parts := Text.split html pageBreak
    let text := html.toList.toArray
    match bodyTag.search? text 0 false with
    | none => parts.filter (Text.strip · != "")
    | some m =>
      let head := String.ofList (Pattern.cut text 0 m.stop)
      (parts.zipIdx.filter (Text.strip ·.1 != "")).map (closePart head)

structure Sheet where
  width : Double
  height : Double
deriving DecidableEq

namespace Sheet

def margin : Double := .ofInt 54

def textWidth (s : Sheet) : Double :=
  s.width.sub (.ofInt 108)

def textHeight (s : Sheet) : Double :=
  (s.height.sub (.ofInt 108)).sub (.ofInt 34)

/-- The number of pages for a document of some height: as many as it needs, and at least one. -/
def pageCount (s : Sheet) (height : Double) : Nat :=
  max 1 (((height.add s.textHeight).sub (.ofInt 1)).floorDiv s.textHeight).toNat

/-- The steps for a slice of a document, which is shifted to the place of the text. -/
def drawSlice (s : Sheet) (slice : Nat) : List Drawing :=
  let top := s.textHeight.scale slice
  [.save, .shift margin (margin.sub top), .contents top s.textWidth s.textHeight, .restore]

def footerTop (s : Sheet) : Double :=
  (s.height.sub margin).add (.ofInt 14)

def drawFooter (s : Sheet) (logo : Option String) (page total : Nat) : List Drawing :=
  let y := s.footerTop
  let rule := y.sub (.ofInt 12)
  let textTop := y.sub (.ofInt 8)
  [.save, .pen "#8a938d", .font "Microsoft YaHei" 8,
    .line margin rule (s.width.sub margin) rule] ++
  (match logo with
    | some path => [.image path margin (y.sub (.ofInt 9)) 18]
    | none => []) ++
  [.centered margin textTop s.textWidth 20 "Copyright © PineSawFly",
    .rightAligned ((s.width.sub margin).sub (.ofInt 120)) textTop 120 20 s!"第 {page} / {total} 页",
    .restore]

def drawPage (s : Sheet) (logo : Option String) (total : Nat) (page : Nat × Nat) : List Drawing :=
  (if page.2 = 1 then [] else [.newPage]) ++ s.drawSlice page.1 ++ s.drawFooter logo page.2 total

def drawAll (s : Sheet) (logo : Option String) (counts : List Nat) : List Drawing :=
  ((counts.flatMap List.range).zipIdx 1).flatMap (s.drawPage logo (counts.foldl (· + ·) 0))

def opening (path : String) : List Drawing :=
  [.create path, .paper "A4", .resolution 96]

def layOutAll (s : Sheet) (documents : List String) : List Drawing :=
  documents.flatMap fun html => [.load html, .layOut s.textWidth s.textHeight]

/-- The steps after the file is open. Without any height for text no pages can be counted, which shows
with the first document. -/
def printing (s : Sheet) (logo : Option String) (documents : List (String × Double)) :
    List Drawing × Except Fault Unit :=
  if s.textHeight.isZero && !documents.isEmpty then
    (s.layOutAll ((documents.take 1).map (·.1)), .error .zeroDivisor)
  else
    (s.layOutAll (documents.map (·.1)) ++ s.drawAll logo (documents.map fun d => s.pageCount d.2) ++
      [.finish], .ok ())

end Sheet

/-- What the printer tells: the size of its paper, the heights of the documents in the order in
which they are made, and whether it can draw images. -/
structure Printer where
  sheet : Sheet
  heights : List Double
  drawsImages : Bool

def Printer.usualHeight : Double := .ofInt 100

/-- Documents with their heights, and the printer with those that are left. -/
def Printer.measure (p : Printer) : List String → List (String × Double) × Printer
  | [] => ([], p)
  | html :: rest =>
    let (measured, q) := Printer.measure { p with heights := p.heights.drop 1 } rest
    ((html, p.heights.headD usualHeight) :: measured, q)

end SourceAudit.Report
