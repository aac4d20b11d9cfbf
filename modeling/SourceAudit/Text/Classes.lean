/-
# Character classes

The classes of characters that matching, trimming and quoting rely on, as tables
of code point ranges that are looked up by halving. Inside the ASCII range each class is
decided by comparison.
-/

namespace SourceAudit.Text

/-- The numbers in a text, in order. A letter stands for a number below 52, with the capitals after the
others; larger numbers are written in decimals, with a blank between two of them. -/
def numbers (s : String) : List Nat :=
  let close (acc : List Nat × Option Nat) : List Nat := acc.2.toList ++ acc.1
  let step (acc : List Nat × Option Nat) (c : Char) : List Nat × Option Nat :=
    if c.isDigit then (acc.1, some (acc.2.getD 0 * 10 + (c.toNat - 48)))
    else if c.isLower then ((c.toNat - 97) :: close acc, none)
    else if c.isUpper then ((c.toNat - 39) :: close acc, none)
    else (close acc, none)
  (close (s.toList.foldl step ([], none))).reverse

def words (s : String) : List (List Char) :=
  (s.splitOn " ").map String.toList

/-- Closed ranges of code points, in increasing order. -/
structure RangeTable where
  ranges : Array (Nat × Nat)

/-- Reads ranges written as gaps: how far the range starts after the end of the one before, then
its length less one. -/
def RangeTable.ofGaps (s : String) : RangeTable :=
  let rec build (from' : Nat) (acc : Array (Nat × Nat)) : List Nat → Array (Nat × Nat)
    | gap :: len :: rest =>
      build (from' + gap + len + 1) (acc.push (from' + gap, from' + gap + len)) rest
    | _ => acc
  ⟨build 0 #[] (numbers s)⟩

/-- The range that holds `n`, looked for between the indices `lo` and `hi`, in at most `fuel`
halvings. -/
def RangeTable.find? (t : RangeTable) (n : Nat) : (fuel lo hi : Nat) → Option (Nat × Nat)
  | 0, _, _ => none
  | fuel + 1, lo, hi =>
    if lo < hi then
      let mid := (lo + hi) / 2
      match t.ranges[mid]? with
      | none => none
      | some (a, b) =>
        if n < a then t.find? n fuel lo mid
        else if b < n then t.find? n fuel (mid + 1) hi
        else some (a, b)
    else none

def RangeTable.rangeOf? (t : RangeTable) (c : Char) : Option (Nat × Nat) :=
  t.find? c.toNat (t.ranges.size + 1) 0 t.ranges.size

def RangeTable.contains (t : RangeTable) (c : Char) : Bool :=
  (t.rangeOf? c).isSome

def RangeTable.offset (t : RangeTable) (c : Char) : Nat :=
  (t.rangeOf? c).elim 0 fun r => c.toNat - r.1

/-! ### Classes -/

def digitTable : RangeTable := .ofGaps <|
  "Wj1574j134j198j412j118j118j118j118j118j118j118j118j118j96j118j70j278j70j1862jMj300j128j166jgj182j86j134jgj35270j" ++
  "678jMj198jwj86j406j21270j1414j2182j812j128j60j144j278j342j118j374j102j102j422j102j758j246j70j19638j86j134j27764X" ++
  "2368j422j1622j4758j"

/-- The table of the white space, with the separator controls `U+001C` to `U+001F`. -/
def blankTable : RangeTable := .ofGaps <|
  "jeoe100aAa5599a2431kDbfaVa4000a"

/-- The table of the characters that are shown as they are in a quoted text. -/
def printableTable : RangeTable := .ofGaps <|
  "G94Ilb713cfegbabtb396bLcXccb54iAefrvb191bVc58c100o58cWcobBcabkfEj73b160bhcbcvbgbaddcicbcdiaebbecyccbfebcvbgbbbbb" ++
  "bcabeebccdahdbahqkcbibcbvbgbbbecjbcbccapdclhgbcbhcbcvbgbbbecicbcchcebbecrkbbfdcbddbbabbdbdcdleedcbdcagaoufmbcbwb" ++
  "pcibcbdhbbccacdcjhvbcbwbjbecibcbdhbgbbdcjbbnmbcbYbcbfepczbcbrdxbibacgdaefbabhgjccm57eCLbbabebxbabwcebabfcjcdG71b" ++
  "JeMbJbobmL197bafac376bdcgbabdcObdcGbdcgbabdcob56bdc66cFdzg85cfc639bBd88hvjxjtmmbcbbm93cjgjgnbkg88hQf69kEbleleadP" ++
  "celRezgkd61c64bCckgjgncEX76dUb115i59dod59hQckiQf533cfcLcfchbabababEc52bobncfbsccbirxiUrbcAbmdGpGp139e662zkv1811c" ++
  "Fb348fSbafac55hboxjgbgbgbgbgbgbgbgb125Izb88m213Alf62b85c102fQb93b83mUb29292d54j347u183i202fbbabey58djg55i69ilg" ++
  "115lDd77bkeGb54jncjc102yBkfcfcfjgbgb59e125cjg11171mweW8452 365c105Mgmefzbebabbbbb124q444c53haGPgYbsbdeeb134e189d" ++
  "fcfcfccdgbgnbclbzbsbbbocnI122fceSd87bmdaVT130CdWpBeJjDfQfDbKenQ157cjgJeJeNiZllbobgbbbkbobgbb67 310jvkhyfbPbi69fc" ++
  "abRbbdacwb71iiWsbbfGdAfa64 55etcXbbfhbcbCccejhih63GMelj53dCcAfzhdmg80 72 55YnYhTij294EbPbccb78NiPwzMBuwj77eJj61b" ++
  "enyhjg52briMj95btlrbR65gbabdbobkg58fjgdbhcbcvbgbbbebjcbcccagafgcgde139 91beE71ij166 53cLI68ljgmt57gj54Acoew185" ++
  " 59 100 82mhcachbbbDbbcljj70hcTckB71i82n72 263ibSbnkCdFcvbn73gbbbRdabbbiijgfbbbKbbbfhj310y183apXn922 102 110bel" ++
  "195 2636 98n1070 4049 582 8633 568hEbje80bjgDcfk69kjbgbufs688 90 101 74e56hq64elbo6135i1237Qi8935dbgbbb290Tcrdi" ++
  "395 2308 106fmdihjcd4704Tcwj115 60 245kMc73i111v69 154tm86jy135 84b70bbcacbcdblbabgb64bdchbgbBbdbebadgb339c291c" ++
  "701pebo1104E225gbqcgbbbe213Sdncjeb320Er57fa1248gbdbbbob196cpP75ejeb785 67 76 60 194dbAbbbacabjbdbabagaeabababcbb" ++
  "bacabababababbbacdbgbdbdbabjbqfcbebq52b270Re99mocobobKk173 56CnReihbof154 983fpdmd115m88hleaple55ijgNiDcb78 339m" ++
  "ncededgjCdkffkjghigj146b54Lj1030 42719G4152h221c5761o7472 3103 541 1506 4938 716213 239"

def letterTable : RangeTable := .ofGaps <|
  "65zgzVakaeafwbEb457eloehaba129ebbcdbagabcbabtb82b138i165bLcagO71AedTQJbb98bapbhbkccaqabDD88layGjbeafveajadaxyhkf" ++
  "xbfrP58 53dasahjppehcbcvbgbadddaqanbbcobkaifebcvbgbbbbbbFdbatcqibcbvbgbbbedasapbxalhcbcvbgbbbedaEbbcparabfdcbddb" ++
  "babbdbdcdlwa52hbcbwbpdaAccacbEaehbcbwbjbedaFbbbpbribcbOcaqafcicyffrdxbibacg58Vbbmg58bbabebxbabjbbjacebavdGa63hbJ" ++
  "Be115QuaqfeddadbhcemmarLbafacQb332bdcgbabdcObdcGbdcgbabdcob56bdc66Lpq85cfd619cqbzf74ghhrnsorombcpZJaea67 88hecHb" ++
  "af69kEXDcelRez54wj52 82a93Urh54DnbkRAJPckJcihQccPdbfbbdaf191 64 277cfcLcfchbabababEc52bgbadcbgddcfemfcbg116anaqm" ++
  "101aeacjbadegabababdbkcdfeea52b2683 228gddbmLbafac55haqwjgbgbgbgbgbgbgbg80a469bQefbe85gcb89bdfQb93rFWp512 6591" ++
  " 64 22156 67Tc268dpkbuUqEc69Xic102c63fbbabeypbcbdbwDZoX62fdabblBkwzChUCaqebjkebOxcbhuwdadXbadbcecabaycckhcmfcfcf" ++
  "jgbgbQbng114D11171mweW8452 365c105Mgmefabjbmbebabbbbb107H362s63c53Ol116eb134Kzgzl88dfcfcfccJlbzbsbbbocnI122 389C" ++
  "dWVFntbhgLkDcJehW157sJeJeNiZmkbobgbbbkbobgbb67 310jvkhyfbPbi69fcabRbbdacwkwjE65sbbkvkz70 55gb64apdbcbCQCdCJhbBB" ++
  "53kvksnr110 72 55YnYnJ348Pgb78CkaivQrUuBwm52 57bcanSGyAJDacaiIdamVodvabaJrby84gbabdbobjhUMhcbcvbgbbbedasame158" ++
  " 52sducEVubba184UPdKVua59Qna71ALg185R116 63Fhcachbbbxpaba94hcMqabaCakNhavalTtas72 263ibKraXD112gbbbLvazfbbbFoa" ++
  "327s189a79 921 230 195 2636 96p1070 4049 582 8633 568hEr78rDsVqdFufs688 63 128 74fa66m64bbaC6135i1237Qi8935dbgbb" ++
  "b290Tcrdi395 2308 106fmdihj5990 84b70bbcacbcdblbabgb64bdchbgbBbdbebadgb339cybybEbybEbybEbybEbybh1844E481Skgqa321" ++
  "DsR1268gbdbbbob196 59 67ha1204dbAbbbacabjbdbabagaeabababcbbbacabababababbbacdbgbdbdbabjbqfcbebq4420 42719G4152h" ++
  "221c5761o7472 3103 541 1506 4938"

def casedTable : RangeTable := .ofGaps <|
  "65zgzVakaeafwbEb194bde207bA192dcbdcbagabcbabtb82b138i165bLjO2839LbafacQcc672 85cf2178ihQcc64R63mbH101 277cfcLcfc" ++
  "hbabababEc52bgbadcbgddcfemfcbg261aeacjbadegabababdbfeacdfeearFdb817Z1814 123c102gddbmLbafa30994TsB134 77bwddb58f" ++
  "bbabeBbda821Qfih79 20288gme1033zgz1189 79 96JeJ116kbobgbbbkbobgbb1731YnY2989 63 21856 63 25984 84b70bbcacbcdblba" ++
  "bgb64bdchbgbBbdbebadgb339cybybEbybEbybEbybEbybh1844jbt2529 67 2028zgzgz"

/-- The table of the characters that are skipped when looking for the end of a word. -/
def caseIgnorableTable : RangeTable := .ofGaps <|
  "NagalaJaba71aeabaeacb503 191ebeajbba251g207afaXSbabbbbbaSalfkkbaJakuqa101hbjbdHabaEA91k58keacayxRcSahbghP57 55ab" ++
  "aeheadgkbnapa58aediaubAacb57aebebccdaEbdalb57aeebbeaubwfba58acabdiahblbEa61amaYada55abcfcbdhblbDa58acagafbubCb57" ++
  "bediaubDa72ahcba90acgli98acijabf74bBababa55nbebbfkbJja102dbfbbcbzbecqdnacbgapa94a608c946cDbEbEb64bbgiackdafaTeZa" ++
  "65bIa118cebjagc219bca58abgbabachgjcaNaiEXdWabebafaOimbGdcbbc56abbdabc58hcb64f82cbmbgeagadbY62naI100 445abclcncnc" ++
  "nbmeibkacaceXebjbanaqmZG2955b113c125apa96FVa469aKddefa93f93c28438a1250f270a98dbjbaCd80boH78axc103cdbiadaeazbfa" ++
  "151bArnaMhzkUcWacdcbravb66fcbcbmaiaJalaZabccbfbbaBaobfbba100ejc121acaea20272a147q573pdampIaca169ahagalaJabaVaTb" ++
  "67avc513a226a149e1029fbPbi582cbbfdOcea165b573d387b153kXd123a54oPacbkcXdcbcaeakaYcKebh62amb52ikdca95ccabbga160adh" ++
  "vb57bdaLgde195hccbaxa84fbaebbb238dgbbbBb85hcabb106abacfba101ccdbe259ibb256bbaea144dcbeaGjOfcdiajfccUmbb406gbfba" ++
  "82vcgbbbb122fdabbbgba72bdaba347b5435i14007e59gjd1035a63q64bbb16395dbgbb3230bbd4700Tcw544cjpcgEd148c1979 54eXiaoa" ++
  "webo1360gbqcgbbbe261n368a61d1504g109h2735e789505aE95 128 239"

def numericTable : RangeTable := .ofGaps <|
  "178bfacc1441j134j198j412j118jef108j118j118jcf110m115jig103j104ghs109j96j118j70t268j70j719t881c239jgjwj300j128k" ++
  "165jgj182j86j134jgj1046adfgj198Yce726 59 78v630D1385a777azioc343d138jEhboGjNo29536j188j320f154jMj198jwj86j406j" ++
  "21270j493Sm56rb341AKdDaia134e202j942hzgNi75ewf160bcpcT64i52bEc75e104hyhPg330fWj294E158jQd112g134D128j60j144jht" ++
  "251j342j118j374j102j102l420s93j758C227j70j534u1067 110 17905j86j134jbg798w25673t108y1109X2368j422j1485i128j791" ++
  " 58bcbd76Sbo962m2787j"

/-- The table of the characters that are no letters and may start an identifier. -/
def letterLikeTable : RangeTable := .ofGaps <|
  "5870c404b2193avaXIcd3710azioc30379j23120 52 460aia134e8234 110"

def barredLetterTable : RangeTable := .ofGaps <|
  "890a2744a127a8059a52782f406b116abababababababa287b"

/-- The table of the characters that may follow in an identifier, but neither start it nor are digits. -/
def markTable : RangeTable := .ofGaps <|
  "183a584 111xa251e265Sbabbbbba72kWuqa101gcfcbbdJaEA91k58ijaydbibcbeRc60hQxbG54cbrbgkbDc56abgcbccjakbAacc56abeebcc" ++
  "daEbdalc56abhbcbcubwfbc56abgcbcchckbEa59edcbdjaOe55abgbcbdhblbDc56abgbcbdhblbCd55bbgbcbdjakbDc70aefbabhsb61abhmh" ++
  "98abjlf74bBababaebXtbbfkbJja100txdecbccgddnlbakd703cji928dCcDbEb64FjaTcba153a118lel158a60e57jbCcaWnbpXeVqMimcEm" ++
  "56nWt152cbueagacc198 63 575bta123meadl3070c141a96F554f105b30164aejGb80b272adaeaxeea83bYrArnaMhzmSdVnKa67nmaibTcY" ++
  "abccbfbbaPefb236hbb20272a737pqpdbyc239a94b605a226a149e1670cbbfdOcea165b573d387b153kXd122c53oPacbkdTkha61cKnqbSam" ++
  "cWnidbb92lga160lvd55bbgcbccjakbcgde192rxa81t235gciBb82q106m101o256o245fbbcdbabb141gcgdaCjOgbdiajkUp405hbh82vbn" ++
  "122fdabbbgba66ebbbe347d19449e59g1048ab54hd81alb19627b4705Tcw542edfihcgEd148c1979 54eXiaoawebo1360gbqcgbbbe261g" ++
  "375a61d1504g109g792501 239"

def isAsciiLetter (c : Char) : Bool :=
  ('a' ≤ c && c ≤ 'z') || ('A' ≤ c && c ≤ 'Z')

def isAsciiDigit (c : Char) : Bool :=
  '0' ≤ c && c ≤ '9'

def isWord (c : Char) : Bool :=
  if c.toNat < 128 then isAsciiLetter c || isAsciiDigit c || c == '_'
  else letterTable.contains c || numericTable.contains c

def isLetter (c : Char) : Bool :=
  if c.toNat < 128 then isAsciiLetter c else letterTable.contains c

def isDigit (c : Char) : Bool :=
  if c.toNat < 128 then isAsciiDigit c else digitTable.contains c

/-- White space: the blanks and line ends of all scripts and the four separator controls. -/
def isBlank (c : Char) : Bool :=
  if c.toNat < 128 then (9 ≤ c.toNat && c.toNat ≤ 13) || (28 ≤ c.toNat && c.toNat ≤ 32)
  else blankTable.contains c

def isPrintable (c : Char) : Bool :=
  if c.toNat < 128 then 32 ≤ c.toNat && c.toNat < 127 else printableTable.contains c

def isIdentStart (c : Char) : Bool :=
  if c.toNat < 128 then isAsciiLetter c || c == '_'
  else (letterTable.contains c && !barredLetterTable.contains c) || letterLikeTable.contains c

def isIdentPart (c : Char) : Bool :=
  if c.toNat < 128 then isAsciiLetter c || isAsciiDigit c || c == '_'
  else isIdentStart c || digitTable.contains c || markTable.contains c

/-- An identifier is not empty, starts with a starting character and goes on with identifier parts. -/
def isIdentifier (s : String) : Bool :=
  match s.toList with
  | [] => false
  | c :: cs => isIdentStart c && cs.all isIdentPart

/-- The value of a decimal digit. The digits of a script stand in a row of ten that starts with zero. -/
def digitValue (c : Char) : Nat :=
  if c.toNat < 128 then c.toNat - 48 else digitTable.offset c % 10

end SourceAudit.Text
