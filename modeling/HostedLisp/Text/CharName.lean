/-!
# Characters by name

Only names in frequent use are known.

- `Text.namedRuns`: characters in a row whose names begin alike.
- `Text.controlNames`, `Text.symbolNames`: the names of single characters.
- `Text.charNamed?`: the character with a given name, in letters of either case.
-/

namespace HostedLisp.Text

/-- The first of some characters in a row, how their names begin, and how each goes on, with commas
between. -/
abbrev NamedRun := Nat × String × List String

/-- The capital and the small letters of an alphabet, from one of each on. -/
def cased (alphabet : String) (capital small : Nat) (names : List String) : List NamedRun :=
  [(capital, alphabet ++ " CAPITAL LETTER ", names), (small, alphabet ++ " SMALL LETTER ", names)]

def casedRuns : List NamedRun :=
  cased "LATIN" 0x41 0x61 ["A,B,C,D,E,F,G,H,I,J,K,L,M,N,O,P,Q,R,S,T,U,V,W,X,Y,Z"] ++
  cased "LATIN" 0xc0 0xe0
    ["A WITH GRAVE,A WITH ACUTE,A WITH CIRCUMFLEX,A WITH TILDE,A WITH DIAERESIS",
    "A WITH RING ABOVE,AE,C WITH CEDILLA,E WITH GRAVE,E WITH ACUTE,E WITH CIRCUMFLEX",
    "E WITH DIAERESIS,I WITH GRAVE,I WITH ACUTE,I WITH CIRCUMFLEX,I WITH DIAERESIS,ETH",
    "N WITH TILDE,O WITH GRAVE,O WITH ACUTE,O WITH CIRCUMFLEX,O WITH TILDE,O WITH DIAERESIS"] ++
  cased "LATIN" 0xd8 0xf8
    ["O WITH STROKE,U WITH GRAVE,U WITH ACUTE,U WITH CIRCUMFLEX,U WITH DIAERESIS,Y WITH ACUTE",
    "THORN"] ++
  cased "GREEK" 0x391 0x3b1
    ["ALPHA,BETA,GAMMA,DELTA,EPSILON,ZETA,ETA,THETA,IOTA,KAPPA,LAMDA,MU,NU,XI,OMICRON,PI,RHO"] ++
  cased "GREEK" 0x3a3 0x3c3 ["SIGMA,TAU,UPSILON,PHI,CHI,PSI,OMEGA"] ++
  cased "CYRILLIC" 0x410 0x430
    ["A,BE,VE,GHE,DE,IE,ZHE,ZE,I,SHORT I,KA,EL,EM,EN,O,PE,ER,ES,TE,U,EF,HA,TSE,CHE,SHA,SHCHA",
    "HARD SIGN,YERU,SOFT SIGN,E,YU,YA"]

def namedRuns : List NamedRun := casedRuns ++ [
  (0x20, "",
    ["SPACE,EXCLAMATION MARK,QUOTATION MARK,NUMBER SIGN,DOLLAR SIGN,PERCENT SIGN,AMPERSAND",
    "APOSTROPHE,LEFT PARENTHESIS,RIGHT PARENTHESIS,ASTERISK,PLUS SIGN,COMMA,HYPHEN-MINUS",
    "FULL STOP,SOLIDUS"]),
  (0x30, "DIGIT ", ["ZERO,ONE,TWO,THREE,FOUR,FIVE,SIX,SEVEN,EIGHT,NINE"]),
  (0x3a, "",
    ["COLON,SEMICOLON,LESS-THAN SIGN,EQUALS SIGN,GREATER-THAN SIGN,QUESTION MARK,COMMERCIAL AT"]),
  (0x5b, "",
    ["LEFT SQUARE BRACKET,REVERSE SOLIDUS,RIGHT SQUARE BRACKET,CIRCUMFLEX ACCENT,LOW LINE",
    "GRAVE ACCENT"]),
  (0x7b, "", ["LEFT CURLY BRACKET,VERTICAL LINE,RIGHT CURLY BRACKET,TILDE"]),
  (0xa0, "",
    ["NO-BREAK SPACE,INVERTED EXCLAMATION MARK,CENT SIGN,POUND SIGN,CURRENCY SIGN,YEN SIGN",
    "BROKEN BAR,SECTION SIGN,DIAERESIS,COPYRIGHT SIGN,FEMININE ORDINAL INDICATOR",
    "LEFT-POINTING DOUBLE ANGLE QUOTATION MARK,NOT SIGN,SOFT HYPHEN,REGISTERED SIGN,MACRON",
    "DEGREE SIGN,PLUS-MINUS SIGN,SUPERSCRIPT TWO,SUPERSCRIPT THREE,ACUTE ACCENT,MICRO SIGN",
    "PILCROW SIGN,MIDDLE DOT,CEDILLA,SUPERSCRIPT ONE,MASCULINE ORDINAL INDICATOR",
    "RIGHT-POINTING DOUBLE ANGLE QUOTATION MARK,VULGAR FRACTION ONE QUARTER",
    "VULGAR FRACTION ONE HALF,VULGAR FRACTION THREE QUARTERS,INVERTED QUESTION MARK"]),
  (0x2010, "",
    ["HYPHEN,NON-BREAKING HYPHEN,FIGURE DASH,EN DASH,EM DASH,HORIZONTAL BAR,DOUBLE VERTICAL LINE",
    "DOUBLE LOW LINE,LEFT SINGLE QUOTATION MARK,RIGHT SINGLE QUOTATION MARK",
    "SINGLE LOW-9 QUOTATION MARK,SINGLE HIGH-REVERSED-9 QUOTATION MARK",
    "LEFT DOUBLE QUOTATION MARK,RIGHT DOUBLE QUOTATION MARK,DOUBLE LOW-9 QUOTATION MARK",
    "DOUBLE HIGH-REVERSED-9 QUOTATION MARK,DAGGER,DOUBLE DAGGER,BULLET,TRIANGULAR BULLET",
    "ONE DOT LEADER,TWO DOT LEADER,HORIZONTAL ELLIPSIS,HYPHENATION POINT"])]

/-- The character of a run that has a name. -/
def placeIn? (name : String) : NamedRun → Option Nat
  | (first, start, names) =>
    let all := (names.flatMap (·.splitOn ",")).map (start ++ ·)
    (all.idxOf? name).map (first + ·)

/-- The names of characters that are known by what they do. -/
def controlNames : List (String × Nat) := [
  ("NULL", 0x0), ("START OF HEADING", 0x1), ("START OF TEXT", 0x2), ("END OF TEXT", 0x3),
  ("END OF TRANSMISSION", 0x4), ("ENQUIRY", 0x5), ("ACKNOWLEDGE", 0x6), ("ALERT", 0x7),
  ("BACKSPACE", 0x8), ("CHARACTER TABULATION", 0x9), ("HORIZONTAL TABULATION", 0x9), ("TAB", 0x9),
  ("LINE FEED", 0xa), ("NEW LINE", 0xa), ("END OF LINE", 0xa), ("LINE TABULATION", 0xb),
  ("VERTICAL TABULATION", 0xb), ("FORM FEED", 0xc), ("CARRIAGE RETURN", 0xd), ("SHIFT OUT", 0xe),
  ("SHIFT IN", 0xf), ("DATA LINK ESCAPE", 0x10), ("DEVICE CONTROL ONE", 0x11),
  ("DEVICE CONTROL TWO", 0x12), ("DEVICE CONTROL THREE", 0x13), ("DEVICE CONTROL FOUR", 0x14),
  ("NEGATIVE ACKNOWLEDGE", 0x15), ("SYNCHRONOUS IDLE", 0x16), ("END OF TRANSMISSION BLOCK", 0x17),
  ("CANCEL", 0x18), ("END OF MEDIUM", 0x19), ("SUBSTITUTE", 0x1a), ("ESCAPE", 0x1b),
  ("INFORMATION SEPARATOR FOUR", 0x1c), ("FILE SEPARATOR", 0x1c),
  ("INFORMATION SEPARATOR THREE", 0x1d), ("GROUP SEPARATOR", 0x1d),
  ("INFORMATION SEPARATOR TWO", 0x1e), ("RECORD SEPARATOR", 0x1e),
  ("INFORMATION SEPARATOR ONE", 0x1f), ("UNIT SEPARATOR", 0x1f), ("DELETE", 0x7f),
  ("BREAK PERMITTED HERE", 0x82), ("NO BREAK HERE", 0x83), ("NEXT LINE", 0x85), ("NUL", 0x0),
  ("SOH", 0x1), ("STX", 0x2), ("ETX", 0x3), ("EOT", 0x4), ("ENQ", 0x5), ("ACK", 0x6),
  ("BEL", 0x7), ("BS", 0x8), ("HT", 0x9), ("LF", 0xa), ("NL", 0xa), ("EOL", 0xa), ("VT", 0xb),
  ("FF", 0xc), ("CR", 0xd), ("SO", 0xe), ("SI", 0xf), ("DLE", 0x10), ("NAK", 0x15), ("SYN", 0x16),
  ("ETB", 0x17), ("CAN", 0x18), ("EOM", 0x19), ("SUB", 0x1a), ("ESC", 0x1b), ("FS", 0x1c),
  ("GS", 0x1d), ("RS", 0x1e), ("US", 0x1f), ("SP", 0x20), ("DEL", 0x7f), ("NBSP", 0xa0),
  ("SHY", 0xad), ("ZWSP", 0x200b), ("ZWNJ", 0x200c), ("ZWJ", 0x200d), ("LRM", 0x200e),
  ("RLM", 0x200f), ("NNBSP", 0x202f), ("ZWNBSP", 0xfeff), ("BOM", 0xfeff),
  ("BYTE ORDER MARK", 0xfeff), ("WJ", 0x2060)]

/-- The names of letters that stand alone, arrows, operators and other symbols in frequent use. -/
def symbolNames : List (String × Nat) := [
  ("MULTIPLICATION SIGN", 0xd7), ("LATIN SMALL LETTER SHARP S", 0xdf), ("DIVISION SIGN", 0xf7),
  ("LATIN SMALL LETTER DOTLESS I", 0x131), ("LATIN CAPITAL LIGATURE OE", 0x152),
  ("LATIN SMALL LIGATURE OE", 0x153), ("LATIN CAPITAL LETTER Y WITH DIAERESIS", 0x178),
  ("LATIN SMALL LETTER LONG S", 0x17f), ("LATIN SMALL LETTER F WITH HOOK", 0x192),
  ("GREEK SMALL LETTER FINAL SIGMA", 0x3c2), ("CYRILLIC CAPITAL LETTER IO", 0x401),
  ("CYRILLIC SMALL LETTER IO", 0x451), ("PER MILLE SIGN", 0x2030), ("PRIME", 0x2032),
  ("DOUBLE PRIME", 0x2033), ("INTERROBANG", 0x203d), ("EURO SIGN", 0x20ac),
  ("DOUBLE-STRUCK CAPITAL C", 0x2102), ("DEGREE CELSIUS", 0x2103), ("EULER CONSTANT", 0x2107),
  ("PLANCK CONSTANT", 0x210e), ("DOUBLE-STRUCK CAPITAL N", 0x2115), ("NUMERO SIGN", 0x2116),
  ("DOUBLE-STRUCK CAPITAL R", 0x211d), ("TRADE MARK SIGN", 0x2122),
  ("DOUBLE-STRUCK CAPITAL Z", 0x2124), ("OHM SIGN", 0x2126), ("ANGSTROM SIGN", 0x212b),
  ("ALEF SYMBOL", 0x2135), ("LEFTWARDS ARROW", 0x2190), ("UPWARDS ARROW", 0x2191),
  ("RIGHTWARDS ARROW", 0x2192), ("DOWNWARDS ARROW", 0x2193), ("LEFT RIGHT ARROW", 0x2194),
  ("UP DOWN ARROW", 0x2195), ("RIGHTWARDS DOUBLE ARROW", 0x21d2), ("FOR ALL", 0x2200),
  ("PARTIAL DIFFERENTIAL", 0x2202), ("THERE EXISTS", 0x2203), ("EMPTY SET", 0x2205),
  ("INCREMENT", 0x2206), ("NABLA", 0x2207), ("ELEMENT OF", 0x2208), ("N-ARY PRODUCT", 0x220f),
  ("N-ARY SUMMATION", 0x2211), ("MINUS SIGN", 0x2212), ("SQUARE ROOT", 0x221a),
  ("PROPORTIONAL TO", 0x221d), ("INFINITY", 0x221e), ("LOGICAL AND", 0x2227),
  ("LOGICAL OR", 0x2228), ("INTERSECTION", 0x2229), ("UNION", 0x222a), ("INTEGRAL", 0x222b),
  ("ALMOST EQUAL TO", 0x2248), ("NOT EQUAL TO", 0x2260), ("IDENTICAL TO", 0x2261),
  ("LESS-THAN OR EQUAL TO", 0x2264), ("GREATER-THAN OR EQUAL TO", 0x2265), ("SUBSET OF", 0x2282),
  ("SUPERSET OF", 0x2283), ("PLACE OF INTEREST SIGN", 0x2318), ("FULL BLOCK", 0x2588),
  ("BLACK SQUARE", 0x25a0), ("WHITE SQUARE", 0x25a1), ("LOZENGE", 0x25ca),
  ("WHITE CIRCLE", 0x25cb), ("BLACK CIRCLE", 0x25cf), ("BLACK SUN WITH RAYS", 0x2600),
  ("CLOUD", 0x2601), ("UMBRELLA", 0x2602), ("SNOWMAN", 0x2603), ("COMET", 0x2604),
  ("BLACK STAR", 0x2605), ("WHITE STAR", 0x2606), ("BLACK TELEPHONE", 0x260e),
  ("HOT BEVERAGE", 0x2615), ("SKULL AND CROSSBONES", 0x2620), ("RADIOACTIVE SIGN", 0x2622),
  ("BIOHAZARD SIGN", 0x2623), ("PEACE SYMBOL", 0x262e), ("YIN YANG", 0x262f),
  ("WHITE SMILING FACE", 0x263a), ("FEMALE SIGN", 0x2640), ("MALE SIGN", 0x2642),
  ("BLACK SPADE SUIT", 0x2660), ("BLACK CLUB SUIT", 0x2663), ("BLACK HEART SUIT", 0x2665),
  ("BLACK DIAMOND SUIT", 0x2666), ("EIGHTH NOTE", 0x266a), ("CHECK MARK", 0x2713),
  ("HEAVY CHECK MARK", 0x2714), ("HEAVY BLACK HEART", 0x2764)]

/-- The character with the given name. -/
def charNamed? (name : String) : Option Char :=
  let upper := String.ofList (name.toList.map Char.toUpper)
  let inLists := (controlNames ++ symbolNames).lookup upper
  (namedRuns.findSome? (placeIn? upper) <|> inLists).map Char.ofNat

end HostedLisp.Text
