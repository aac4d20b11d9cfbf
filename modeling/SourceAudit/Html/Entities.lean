/-
# Character references

A reference in HTML stands for a character by its number or for a text by its
name. A name without its semicolon counts if it is one that may lack it, and then
the longest such beginning of what is written counts.

The names stand in the order of their code points. A field of the table has the names of
one character, with strokes between them; after an exclamation mark a name may lack its
semicolon. The next field has the names of the next character, unless there is a plus
sign: then the number is how many characters are passed over. Names of two characters
stand in tables of their own, one for each second character.
-/
import SourceAudit.Text.Basic

namespace SourceAudit.Html

/-- A name, whether it counts without a semicolon, and its text. -/
structure Entity where
  name : String
  bare : Bool
  text : List Char
deriving DecidableEq, Repr, Inhabited

def nameText1 : String :=
  "+9 Tab NewLine +16 excl QUOT!/quot! num dollar percnt AMP!/amp! apos lpar rpar ast/midast plus comma +1 period " ++
  "sol +a colon semi LT!/lt! equals GT!/gt! quest commat +1a lbrack/lsqb bsol rbrack/rsqb Hat UnderBar/lowbar " ++
  "DiacriticalGrave/grave +1a lbrace/lcub VerticalLine/verbar/vert rbrace/rcub +22 NonBreakingSpace/nbsp! iexcl! " ++
  "cent! pound! curren! yen! brvbar! sect! Dot/DoubleDot/die/uml! COPY!/copy! ordf! laquo! not! shy! " ++
  "REG!/circledR/reg! macr!/strns deg! PlusMinus/plusmn!/pm sup2! sup3! DiacriticalAcute/acute! micro! para! " ++
  "CenterDot/centerdot/middot! Cedilla/cedil! sup1! ordm! raquo! frac14! frac12!/half frac34! iquest! Agrave! " ++
  "Aacute! Acirc! Atilde! Auml! Aring!/angst AElig! Ccedil! Egrave! Eacute! Ecirc! Euml! Igrave! Iacute! Icirc! " ++
  "Iuml! ETH! Ntilde! Ograve! Oacute! Ocirc! Otilde! Ouml! times! Oslash! Ugrave! Uacute! Ucirc! Uuml! Yacute! " ++
  "THORN! szlig! agrave! aacute! acirc! atilde! auml! aring! aelig! ccedil! egrave! eacute! ecirc! euml! igrave! " ++
  "iacute! icirc! iuml! eth! ntilde! ograve! oacute! ocirc! otilde! ouml! div/divide! oslash! ugrave! uacute! " ++
  "ucirc! uuml! yacute! thorn! yuml! Amacr amacr Abreve abreve Aogon aogon Cacute cacute Ccirc ccirc Cdot cdot " ++
  "Ccaron ccaron Dcaron dcaron Dstrok dstrok Emacr emacr +2 Edot edot Eogon eogon Ecaron ecaron Gcirc gcirc " ++
  "Gbreve gbreve Gdot gdot Gcedil +1 Hcirc hcirc Hstrok hstrok Itilde itilde Imacr imacr +2 Iogon iogon Idot " ++
  "imath/inodot IJlig ijlig Jcirc jcirc Kcedil kcedil kgreen Lacute lacute Lcedil lcedil Lcaron lcaron Lmidot " ++
  "lmidot Lstrok lstrok Nacute nacute Ncedil ncedil Ncaron ncaron napos ENG eng Omacr omacr +2 Odblac odblac " ++
  "OElig oelig Racute racute Rcedil rcedil Rcaron rcaron Sacute sacute Scirc scirc Scedil scedil Scaron scaron " ++
  "Tcedil tcedil Tcaron tcaron Tstrok tstrok Utilde utilde Umacr umacr Ubreve ubreve Uring uring Udblac udblac " ++
  "Uogon uogon Wcirc wcirc Ycirc ycirc Yuml Zacute zacute Zdot zdot Zcaron zcaron +13 fnof +22 imped +3f gacute " ++
  "+41 jmath +8e circ Hacek/caron +10 Breve/breve DiacriticalDot/dot ring ogon DiacriticalTilde/tilde " ++
  "DiacriticalDoubleAcute/dblac +33 DownBreve +7f Alpha Beta Gamma Delta Epsilon Zeta Eta Theta Iota Kappa Lambda " ++
  "Mu Nu Xi Omicron Pi Rho +1 Sigma Tau Upsilon Phi Chi Psi Omega/ohm +7 alpha beta gamma delta epsi/epsilon zeta " ++
  "eta theta iota kappa lambda mu nu xi omicron pi rho sigmaf/sigmav/varsigma sigma tau upsi/upsilon phi chi psi " ++
  "omega +7 thetasym/thetav/vartheta Upsi/upsih +2 phiv/straightphi/varphi piv/varpi +5 Gammad digamma/gammad +12 " ++
  "kappav/varkappa rhov/varrho +3 epsiv/straightepsilon/varepsilon backepsilon/bepsi +a IOcy DJcy GJcy Jukcy DScy " ++
  "Iukcy YIcy Jsercy LJcy NJcy TSHcy KJcy +1 Ubrcy DZcy Acy Bcy Vcy Gcy Dcy IEcy ZHcy Zcy Icy Jcy Kcy Lcy Mcy Ncy " ++
  "Ocy Pcy Rcy Scy Tcy Ucy Fcy KHcy TScy CHcy SHcy SHCHcy HARDcy Ycy SOFTcy Ecy YUcy YAcy acy bcy vcy gcy dcy " ++
  "iecy zhcy zcy icy jcy kcy lcy mcy ncy ocy pcy rcy scy tcy ucy fcy khcy tscy chcy shcy shchcy hardcy ycy softcy " ++
  "ecy yucy yacy +1 iocy djcy gjcy jukcy dscy iukcy yicy jsercy ljcy njcy tshcy kjcy +1 ubrcy dzcy +1ba2 ensp " ++
  "emsp emsp13 emsp14 +1 numsp puncsp ThinSpace/thinsp VeryThinSpace/hairsp " ++
  "NegativeMediumSpace/NegativeThickSpace/NegativeThinSpace/NegativeVeryThinSpace/ZeroWidthSpace zwnj zwj lrm rlm " ++
  "dash/hyphen +2 ndash mdash horbar Verbar/Vert +1 OpenCurlyQuote/lsquo CloseCurlyQuote/rsquo/rsquor " ++
  "lsquor/sbquo +1 OpenCurlyDoubleQuote/ldquo CloseCurlyDoubleQuote/rdquo/rdquor bdquo/ldquor +1 dagger " ++
  "Dagger/ddagger bull/bullet +2 nldr hellip/mldr +9 permil pertenk prime Prime tprime backprime/bprime +3 lsaquo " ++
  "rsaquo +3 OverBar/oline +2 caret +1 hybull frasl +a bsemi +7 qprime +7 MediumSpace NoBreak ApplyFunction/af " ++
  "InvisibleTimes/it InvisibleComma/ic +48 euro +2e TripleDot/tdot DotDot +25 Copf/complexes +2 incare +4 gscr " ++
  "HilbertSpace/Hscr/hamilt Hfr/Poincareplane Hopf/quaternions planckh hbar/hslash/planck/plankv Iscr/imagline " ++
  "Ifr/Im/image/imagpart Laplacetrf/Lscr/lagran ell +1 Nopf/naturals numero copysr weierp/wp Popf/primes " ++
  "Qopf/rationals Rscr/realine Re/Rfr/real/realpart Ropf/reals rx +3 TRADE/trade +1 Zopf/integers +2 mho " ++
  "Zfr/zeetrf iiota +2 Bernoullis/Bscr/bernou Cayleys/Cfr +1 escr Escr/expectation Fouriertrf/Fscr +1 " ++
  "Mellintrf/Mscr/phmmat order/orderof/oscr alefsym/aleph beth gimel daleth +c CapitalDifferentialD/DD " ++
  "DifferentialD/dd ExponentialE/ee/exponentiale ImaginaryI/ii +a frac13 frac23 frac15 frac25 frac35 frac45 " ++
  "frac16 frac56 frac18 frac38 frac58 frac78 +31 LeftArrow/ShortLeftArrow/larr/leftarrow/slarr " ++
  "ShortUpArrow/UpArrow/uarr/uparrow RightArrow/ShortRightArrow/rarr/rightarrow/srarr " ++
  "DownArrow/ShortDownArrow/darr/downarrow LeftRightArrow/harr/leftrightarrow UpDownArrow/updownarrow/varr " ++
  "UpperLeftArrow/nwarr/nwarrow UpperRightArrow/nearr/nearrow LowerRightArrow/searr/searrow " ++
  "LowerLeftArrow/swarr/swarrow nlarr/nleftarrow nrarr/nrightarrow +1 rarrw/rightsquigarrow Larr/twoheadleftarrow " ++
  "Uarr Rarr/twoheadrightarrow Darr larrtl/leftarrowtail rarrtl/rightarrowtail LeftTeeArrow/mapstoleft " ++
  "UpTeeArrow/mapstoup RightTeeArrow/map/mapsto DownTeeArrow/mapstodown +1 hookleftarrow/larrhk " ++
  "hookrightarrow/rarrhk larrlp/looparrowleft looparrowright/rarrlp harrw/leftrightsquigarrow " ++
  "nharr/nleftrightarrow +1 Lsh/lsh Rsh/rsh ldsh rdsh +1 crarr cularr/curvearrowleft curarr/curvearrowright +2 " ++
  "circlearrowleft/olarr circlearrowright/orarr LeftVector/leftharpoonup/lharu " ++
  "DownLeftVector/leftharpoondown/lhard RightUpVector/uharr/upharpoonright LeftUpVector/uharl/upharpoonleft " ++
  "RightVector/rharu/rightharpoonup DownRightVector/rhard/rightharpoondown RightDownVector/dharr/downharpoonright " ++
  "LeftDownVector/dharl/downharpoonleft RightArrowLeftArrow/rightleftarrows/rlarr UpArrowDownArrow/udarr " ++
  "LeftArrowRightArrow/leftrightarrows/lrarr leftleftarrows/llarr upuparrows/uuarr rightrightarrows/rrarr " ++
  "ddarr/downdownarrows ReverseEquilibrium/leftrightharpoons/lrhar Equilibrium/rightleftharpoons/rlhar " ++
  "nLeftarrow/nlArr nLeftrightarrow/nhArr nRightarrow/nrArr DoubleLeftArrow/Leftarrow/lArr " ++
  "DoubleUpArrow/Uparrow/uArr DoubleRightArrow/Implies/Rightarrow/rArr DoubleDownArrow/Downarrow/dArr " ++
  "DoubleLeftRightArrow/Leftrightarrow/hArr/iff DoubleUpDownArrow/Updownarrow/vArr nwArr neArr seArr swArr " ++
  "Lleftarrow/lAarr Rrightarrow/rAarr +1 zigrarr +6 LeftArrowBar/larrb RightArrowBar/rarrb +f " ++
  "DownArrowUpArrow/duarr +7 loarr roarr hoarr ForAll/forall comp/complement PartialD/part Exists/exist " ++
  "NotExists/nexist/nexists empty/emptyset/emptyv/varnothing +1 Del/nabla Element/in/isin/isinv " ++
  "NotElement/notin/notinva +1 ReverseElement/SuchThat/ni/niv NotReverseElement/notni/notniva +2 Product/prod " ++
  "Coproduct/coprod Sum/sum minus MinusPlus/mnplus/mp dotplus/plusdo +1 " ++
  "Backslash/setminus/setmn/smallsetminus/ssetmn lowast SmallCircle/compfn +1 Sqrt/radic +2 " ++
  "Proportional/prop/propto/varpropto/vprop infin angrt ang/angle angmsd/measuredangle angsph " ++
  "VerticalBar/mid/shortmid/smid NotVerticalBar/nmid/nshortmid/nsmid " ++
  "DoubleVerticalBar/par/parallel/shortparallel/spar NotDoubleVerticalBar/npar/nparallel/nshortparallel/nspar " ++
  "and/wedge or/vee cap cup Integral/int Int iiint/tint ContourIntegral/conint/oint Conint/DoubleContourIntegral " ++
  "Cconint cwint ClockwiseContourIntegral/cwconint CounterClockwiseContourIntegral/awconint " ++
  "Therefore/there4/therefore Because/becaus/because ratio Colon/Proportion dotminus/minusd +1 mDDot homtht " ++
  "Tilde/sim/thicksim/thksim backsim/bsim ac/mstpos acd VerticalTilde/wr/wreath NotTilde/nsim " ++
  "EqualTilde/eqsim/esim TildeEqual/sime/simeq NotTildeEqual/nsime/nsimeq TildeFullEqual/cong simne " ++
  "NotTildeFullEqual/ncong TildeTilde/ap/approx/asymp/thickapprox/thkap NotTildeTilde/nap/napprox ape/approxeq " ++
  "apid backcong/bcong CupCap/asympeq Bumpeq/HumpDownHump/bump HumpEqual/bumpe/bumpeq DotEqual/doteq/esdot " ++
  "doteqdot/eDot efDot/fallingdotseq erDot/risingdotseq Assign/colone/coloneq ecolon/eqcolon ecir/eqcirc " ++
  "circeq/cire +1 wedgeq veeeq +1 triangleq/trie +2 equest/questeq NotEqual/ne Congruent/equiv " ++
  "NotCongruent/nequiv +1 le/leq GreaterEqual/ge/geq LessFullEqual/lE/leqq GreaterFullEqual/gE/geqq lnE/lneqq " ++
  "gnE/gneqq Lt/NestedLessLess/ll Gt/NestedGreaterGreater/gg between/twixt NotCupCap NotLess/nless/nlt " ++
  "NotGreater/ngt/ngtr NotLessEqual/nle/nleq NotGreaterEqual/nge/ngeq LessTilde/lesssim/lsim "

def nameText2 : String :=
  "GreaterTilde/gsim/gtrsim NotLessTilde/nlsim NotGreaterTilde/ngsim LessGreater/lessgtr/lg " ++
  "GreaterLess/gl/gtrless NotLessGreater/ntlg NotGreaterLess/ntgl Precedes/pr/prec Succeeds/sc/succ " ++
  "PrecedesSlantEqual/prcue/preccurlyeq SucceedsSlantEqual/sccue/succcurlyeq PrecedesTilde/precsim/prsim " ++
  "SucceedsTilde/scsim/succsim NotPrecedes/npr/nprec NotSucceeds/nsc/nsucc sub/subset Superset/sup/supset nsub " ++
  "nsup SubsetEqual/sube/subseteq SupersetEqual/supe/supseteq NotSubsetEqual/nsube/nsubseteq " ++
  "NotSupersetEqual/nsupe/nsupseteq subne/subsetneq supne/supsetneq +1 cupdot UnionPlus/uplus " ++
  "SquareSubset/sqsub/sqsubset SquareSuperset/sqsup/sqsupset SquareSubsetEqual/sqsube/sqsubseteq " ++
  "SquareSupersetEqual/sqsupe/sqsupseteq SquareIntersection/sqcap SquareUnion/sqcup CirclePlus/oplus " ++
  "CircleMinus/ominus CircleTimes/otimes osol CircleDot/odot circledcirc/ocir circledast/oast +1 " ++
  "circleddash/odash boxplus/plusb boxminus/minusb boxtimes/timesb dotsquare/sdotb RightTee/vdash LeftTee/dashv " ++
  "DownTee/top UpTee/bot/bottom/perp +1 models DoubleRightTee/vDash Vdash Vvdash VDash nvdash nvDash nVdash " ++
  "nVDash prurel +1 LeftTriangle/vartriangleleft/vltri RightTriangle/vartriangleright/vrtri " ++
  "LeftTriangleEqual/ltrie/trianglelefteq RightTriangleEqual/rtrie/trianglerighteq origof imof multimap/mumap " ++
  "hercon intcal/intercal veebar +1 barvee angrtvb lrtri Wedge/bigwedge/xwedge Vee/bigvee/xvee " ++
  "Intersection/bigcap/xcap Union/bigcup/xcup Diamond/diam/diamond sdot Star/sstarf divideontimes/divonx bowtie " ++
  "ltimes rtimes leftthreetimes/lthree rightthreetimes/rthree backsimeq/bsime curlyvee/cuvee curlywedge/cuwed " ++
  "Sub/Subset Sup/Supset Cap Cup fork/pitchfork epar lessdot/ltdot gtdot/gtrdot Ll Gg/ggg " ++
  "LessEqualGreater/leg/lesseqgtr GreaterEqualLess/gel/gtreqless +2 cuepr/curlyeqprec cuesc/curlyeqsucc " ++
  "NotPrecedesSlantEqual/nprcue NotSucceedsSlantEqual/nsccue NotSquareSubsetEqual/nsqsube " ++
  "NotSquareSupersetEqual/nsqsupe +2 lnsim gnsim precnsim/prnsim scnsim/succnsim " ++
  "NotLeftTriangle/nltri/ntriangleleft NotRightTriangle/nrtri/ntriangleright " ++
  "NotLeftTriangleEqual/nltrie/ntrianglelefteq NotRightTriangleEqual/nrtrie/ntrianglerighteq vellip ctdot utdot " ++
  "dtdot disin isinsv isins isindot notinvc notinvb +1 isinE nisd xnis nis notnivc notnivb +6 barwed/barwedge " ++
  "Barwed/doublebarwedge +1 LeftCeiling/lceil RightCeiling/rceil LeftFloor/lfloor RightFloor/rfloor drcrop dlcrop " ++
  "urcrop ulcrop bnot +1 profline profsurf +1 telrec target +5 ulcorn/ulcorner urcorn/urcorner dlcorn/llcorner " ++
  "drcorn/lrcorner +2 frown/sfrown smile/ssmile +9 cylcty profalar +7 topbot +6 ovbar +1 solbar +3c angzarr +33 " ++
  "lmoust/lmoustache rmoust/rmoustache +2 OverBracket/tbrk UnderBracket/bbrk bbrktbrk +25 OverParenthesis " ++
  "UnderParenthesis OverBrace UnderBrace +2 trpezium +4 elinters +3b blank +a4 circledS/oS +37 " ++
  "HorizontalLine/boxh +1 boxv +9 boxdr +3 boxdl +3 boxur +3 boxul +3 boxvr +7 boxvl +7 boxhd +7 boxhu +7 boxvh " ++
  "+13 boxH boxV boxdR boxDr boxDR boxdL boxDl boxDL boxuR boxUr boxUR boxuL boxUl boxUL boxvR boxVr boxVR boxvL " ++
  "boxVl boxVL boxHd boxhD boxHD boxHu boxhU boxHU boxvH boxVh boxVH +13 uhblk +3 lhblk +3 block +8 blk14 blk12 " ++
  "blk34 +d Square/squ/square +8 FilledVerySmallSquare/blacksquare/squarf/squf EmptyVerySmallSquare +1 rect " ++
  "marker +2 fltns +1 bigtriangleup/xutri blacktriangle/utrif triangle/utri +2 blacktriangleright/rtrif " ++
  "rtri/triangleright +3 bigtriangledown/xdtri blacktriangledown/dtrif dtri/triangledown +2 " ++
  "blacktriangleleft/ltrif ltri/triangleleft +6 loz/lozenge cir +20 tridot +2 bigcirc/xcirc +8 ultri urtri lltri " ++
  "EmptySmallSquare FilledSmallSquare +8 bigstar/starf star +7 phone +31 female +1 male +1d spades/spadesuit +2 " ++
  "clubs/clubsuit +1 hearts/heartsuit diamondsuit/diams +3 sung +2 flat natur/natural sharp +a3 check/checkmark " ++
  "+3 cross +8 malt/maltese +15 sext +21 VerticalSeparator +19 lbbrk rbbrk +54 bsolhsub suphsol +1c " ++
  "LeftDoubleBracket/lobrk RightDoubleBracket/robrk LeftAngleBracket/lang/langle RightAngleBracket/rang/rangle " ++
  "Lang Rang loang roang +7 LongLeftArrow/longleftarrow/xlarr LongRightArrow/longrightarrow/xrarr " ++
  "LongLeftRightArrow/longleftrightarrow/xharr DoubleLongLeftArrow/Longleftarrow/xlArr " ++
  "DoubleLongRightArrow/Longrightarrow/xrArr DoubleLongLeftRightArrow/Longleftrightarrow/xhArr +1 longmapsto/xmap " ++
  "+2 dzigrarr +102 nvlArr nvrArr nvHarr Map +6 lbarr bkarow/rbarr lBarr dbkarow/rBarr RBarr/drbkarow DDotrahd " ++
  "UpArrowBar DownArrowBar +2 Rarrtl +2 latail ratail lAtail rAtail larrfs rarrfs larrbfs rarrbfs +2 nwarhk " ++
  "nearhk hksearow/searhk hkswarow/swarhk nwnear nesear/toea seswar/tosa swnwar +8 rarrc +1 cudarrr ldca rdca " ++
  "cudarrl larrpl +2 curarrm cularrp +7 rarrpl +2 harrcir Uarrocir lurdshar ldrushar +2 LeftRightVector " ++
  "RightUpDownVector DownLeftRightVector LeftUpDownVector LeftVectorBar RightVectorBar RightUpVectorBar " ++
  "RightDownVectorBar DownLeftVectorBar DownRightVectorBar LeftUpVectorBar LeftDownVectorBar LeftTeeVector " ++
  "RightTeeVector RightUpTeeVector RightDownTeeVector DownLeftTeeVector DownRightTeeVector LeftUpTeeVector " ++
  "LeftDownTeeVector lHar uHar rHar dHar luruhar ldrdhar ruluhar rdldhar lharul llhard rharul lrhard " ++
  "UpEquilibrium/udhar ReverseUpEquilibrium/duhar RoundImplies erarr simrarr larrsim rarrsim rarrap ltlarr +1 " ++
  "gtrarr subrarr +1 suplarr lfisht rfisht ufisht dfisht +5 lopar ropar +4 lbrke rbrke lbrkslu rbrksld lbrksld " ++
  "rbrkslu langd rangd lparlt rpargt gtlPar ltrPar +3 vzigzag +1 vangrt angrtvbd +6 ange range dwangle uwangle " ++
  "angmsdaa angmsdab angmsdac angmsdad angmsdae angmsdaf angmsdag angmsdah bemptyv demptyv cemptyv raemptyv " ++
  "laemptyv ohbar omid opar +1 operp +1 olcross odsold +1 olcir ofcir olt ogt cirscir cirE solb bsolb +3 boxbox " ++
  "+3 trisb rtriltri LeftTriangleBar RightTriangleBar +b iinfin infintie nvinfin +4 eparsl smeparsl eqvparsl +5 " ++
  "blacklozenge/lozf +8 RuleDelayed +1 dsol +9 bigodot/xodot bigoplus/xoplus bigotimes/xotime +1 biguplus/xuplus " ++
  "+1 bigsqcup/xsqcup +5 iiiint/qint fpartint +2 cirfnint awint rppolint scpolint npolint pointint quatint " ++
  "intlarhk +a pluscir plusacir simplus plusdu plussim plustwo +1 mcomma minusdu +2 loplus roplus Cross timesd " ++
  "timesbar +1 smashp lotimes rotimes otimesas Otimes odiv triplus triminus tritime intprod/iprod +2 amalg capdot " ++
  "+1 ncup ncap capand cupor cupcap capcup cupbrcap capbrcup cupcup capcap ccups ccaps +2 ccupssm +2 And Or " ++
  "andand oror orslope andslope +1 andv orv andd ord +1 wedbar +6 sdote +3 simdot +2 congdot easter apacir apE " ++
  "eplus pluse Esim Colone Equal +1 ddotseq/eDDot equivDD ltcir gtcir ltquest gtquest LessSlantEqual/leqslant/les " ++
  "GreaterSlantEqual/geqslant/ges lesdot gesdot lesdoto gesdoto lesdotor gesdotol lap/lessapprox gap/gtrapprox " ++
  "lne/lneq gne/gneq lnap/lnapprox gnap/gnapprox lEg/lesseqqgtr gEl/gtreqqless lsime gsime lsimg gsiml lgE glE " ++
  "lesges gesles els/eqslantless egs/eqslantgtr elsdot egsdot el eg +2 siml simg simlE simgE LessLess " ++
  "GreaterGreater +1 glj gla ltcc gtcc lescc gescc smt lat smte late bumpE PrecedesEqual/pre/preceq " ++
  "SucceedsEqual/sce/succeq +2 prE scE precneqq/prnE scnE/succneqq prap/precapprox scap/succapprox " ++
  "precnapprox/prnap scnap/succnapprox Pr Sc subdot supdot subplus supplus submult supmult subedot supedot " ++
  "subE/subseteqq supE/supseteqq subsim supsim +2 subnE/subsetneqq supnE/supsetneqq +2 csub csup csube csupe " ++
  "subsup supsub subsub supsup suphsub supdsub forkv topfork mlcp +8 Dashv/DoubleLeftTee +1 Vdashl Barv vBar " ++
  "vBarv +1 Vbar Not bNot rnmid cirmid midcir topcir nhpar parsim +9 parsl +d002 fflig filig fllig ffilig ffllig " ++
  "+d997 Ascr +1 Cscr Dscr +2 Gscr +2 Jscr Kscr +2 Nscr Oscr Pscr Qscr +1 Sscr Tscr Uscr Vscr Wscr Xscr Yscr Zscr " ++
  "ascr bscr cscr dscr +1 fscr +1 hscr iscr jscr kscr lscr mscr nscr +1 pscr qscr rscr sscr tscr uscr vscr wscr " ++
  "xscr yscr zscr +34 Afr Bfr +1 Dfr Efr Ffr Gfr +2 Jfr Kfr Lfr Mfr Nfr Ofr Pfr Qfr +1 Sfr Tfr Ufr Vfr Wfr Xfr " ++
  "Yfr +1 afr bfr cfr dfr efr ffr gfr hfr ifr jfr kfr lfr mfr nfr ofr pfr qfr rfr sfr tfr ufr vfr wfr xfr yfr zfr " ++
  "Aopf Bopf +1 Dopf Eopf Fopf Gopf +1 Iopf Jopf Kopf Lopf Mopf +1 Oopf +3 Sopf Topf Uopf Vopf Wopf Xopf Yopf +1 " ++
  "aopf bopf copf dopf eopf fopf gopf hopf iopf jopf kopf lopf mopf nopf oopf popf qopf ropf sopf topf uopf vopf " ++
  "wopf xopf yopf zopf"

/-- The names of two characters, by the second one. -/
def pairTexts : List (Char × String) := [
  ('\u0338',
    "+219d nrarrw +64 npart +3f NotEqualTilde/nesim +8 napid +2 NotHumpDownHump/nbump NotHumpEqual/nbumpe nedot " ++
    "+15 nlE/nleqq NotGreaterFullEqual/ngE/ngeqq +2 NotLessLess/nLtv NotGreaterGreater/nGtv +13 NotSucceedsTilde " ++
    "+f NotSquareSubset NotSquareSuperset +47 nLl nGg +1b notindot +3 notinE +639 nrarrc +9b NotLeftTriangleBar " ++
    "NotRightTriangleBar +9c ncongdot +2 napE +c NotLessSlantEqual/nleqslant/nles " ++
    "NotGreaterSlantEqual/ngeqslant/nges +22 NotNestedLessLess NotNestedGreaterGreater +c " ++
    "NotPrecedesEqual/npre/npreceq NotSucceedsEqual/nsce/nsucceq +14 nsubE/nsubseteqq nsupE/nsupseteqq"),
  ('\ufe00',
    "+2229 caps cups +3d lvertneqq/lvnE gvertneqq/gvnE +20 varsubsetneq/vsubne varsupsetneq/vsupne +7 sqcaps " ++
    "sqcups +45 lesg gesl +7d0 smtes lates +1d varsubsetneqq/vsubnE varsupsetneqq/vsupnE"),
  ('\u20d2',
    "+3c nvlt +1 nvgt +21e1 nang +1b nvsim +10 nvap +16 nvle nvge +4 nLt nGt +16 NotSubset/nsubset/vnsub " ++
    "NotSuperset/nsupset/vnsup +30 nvltrie nvrtrie"),
  ('\u20e5', "+3d bne +2223 bnequiv +89b nparsl"),
  ('j', "+66 fjlig"),
  ('\u200a', "+205f ThickSpace"),
  ('\u0331', "+223d race"),
  ('\u0333', "+223e acE")]

def Entity.listOf (field : String) (text : List Char) : List Entity :=
  (Text.split field "/").map fun s => ⟨Text.stripEndOf '!' s, Text.endsWith s "!", text⟩

/-- The names in the fields, for characters from `n` on, with the same characters after each. -/
def namedFrom (after : List Char) (n : Nat) : List String → List Entity
  | [] => []
  | field :: rest =>
    match field.toList with
    | '+' :: digits => namedFrom after (n + Text.numberIn 16 digits) rest
    | _ => Entity.listOf field (Char.ofNat n :: after) ++ namedFrom after (n + 1) rest

def entities : List Entity :=
  namedFrom [] 0 (Text.fields (nameText1 ++ " " ++ nameText2)) ++
    pairTexts.flatMap fun (c, text) => namedFrom [c] 0 (Text.fields text)

/-! ### References -/

/-- The characters of the numbers from `0x80` on that are taken for places in an older character set. -/
def olderCodes : List Nat := [
  0x20AC, 0x81, 0x201A, 0x192, 0x201E, 0x2026, 0x2020, 0x2021, 0x2C6, 0x2030, 0x160, 0x2039, 0x152, 0x8D, 0x17D,
  0x8F, 0x90, 0x2018, 0x2019, 0x201C, 0x201D, 0x2022, 0x2013, 0x2014, 0x2DC, 0x2122, 0x161, 0x203A, 0x153, 0x9D,
  0x17E, 0x178]

def isNonCharacter (n : Nat) : Bool :=
  (1 ≤ n && n ≤ 8) || n == 11 || (14 ≤ n && n ≤ 31) || (127 ≤ n && n ≤ 159) ||
    (0xFDD0 ≤ n && n ≤ 0xFDEF) || 0xFFFE ≤ n % 0x10000

def numberText (n : Nat) : List Char :=
  if n == 0 || (0xD800 ≤ n && n ≤ 0xDFFF) || 0x10FFFF < n then [Char.ofNat 0xFFFD]
  else if 0x80 ≤ n && n < 0xA0 then [Char.ofNat (olderCodes.getD (n - 0x80) n)]
  else if isNonCharacter n then []
  else [Char.ofNat n]

/-- The text of a name, which ends in a semicolon or may lack it. -/
def nameText? (name : List Char) : Option (List Char) :=
  let bare := name.getLast? != some ';'
  let key := String.ofList (if bare then name else name.dropLast)
  (entities.find? fun e => e.name == key && (!bare || e.bare)).map Entity.text

/-- The text of the longest beginning of a name with at most `n` characters and at least two, with
what comes after it. -/
def longestName? (name : List Char) : (n : Nat) → Option (List Char)
  | 0 | 1 => none
  | n + 2 =>
    match nameText? (name.take (n + 2)) with
    | some t => some (t ++ name.drop (n + 2))
    | none => longestName? name (n + 1)

def writtenName? (name : List Char) : Option (List Char) :=
  match nameText? name with
  | some t => some t
  | none => longestName? name (name.length - 1)

def semicolon (cs : List Char) : Nat :=
  if cs.head? == some ';' then 1 else 0

def isNameChar (c : Char) : Bool :=
  !("\t\n\x0c <&#;".toList.contains c)

/-- A reference after its ampersand: its text, and how many characters it takes. -/
def reference? (cs : List Char) : Option (List Char × Nat) :=
  match cs with
  | '#' :: rest =>
    let digits := rest.takeWhile Char.isDigit
    if !digits.isEmpty then
      some (numberText (Text.numberIn 10 digits), 1 + digits.length + semicolon (rest.drop digits.length))
    else if rest.head? == some 'x' || rest.head? == some 'X' then
      let digits := (rest.drop 1).takeWhile Text.isHexDigit
      if digits.isEmpty then none
      else some (numberText (Text.numberIn 16 digits),
        2 + digits.length + semicolon (rest.drop (1 + digits.length)))
    else none
  | _ =>
    let base := (cs.takeWhile isNameChar).take 32
    if base.isEmpty then none
    else
      let name := cs.take (base.length + semicolon (cs.drop base.length))
      (writtenName? name).map fun t => (t, name.length)

/-- Replaces references; `skip` characters of one are still to be passed over, and `done` is the
result so far, backwards. -/
def unescapeFrom (done : List Char) : (skip : Nat) → List Char → List Char
  | _, [] => done.reverse
  | skip + 1, _ :: cs => unescapeFrom done skip cs
  | 0, c :: cs =>
    if c == '&' then
      match reference? cs with
      | some (t, n) => unescapeFrom (t.reverse ++ done) n cs
      | none => unescapeFrom (c :: done) 0 cs
    else unescapeFrom (c :: done) 0 cs

def unescape (s : String) : String :=
  String.ofList (unescapeFrom [] 0 s.toList)

end SourceAudit.Html
