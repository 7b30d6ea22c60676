/-!
# Ranges of binary properties

Each binary property as the general categories that it mostly consists of, the ranges it has
beyond them, and the ranges of them that it lacks. A range is written as the number of code
points between it and the range before, and, after a `+`, how many follow its first one.
-/

namespace JsonRules.Unicode

/-- A binary property by its difference from a union of categories. -/
structure PropertyRanges where
  names : String
  categories : String
  beyond : List String
  without : List String

def propertyRanges : List PropertyRanges := [
  ⟨"Alphabetic Alpha",
    "Ll Lm Lo Lt Lu Nl",
    [
      "837 618+13 1 1+1 1+1 1 72+10 48+12 1+6 16 101+6 4+3 2+1 4 35 30+15 102+10 101+1 3+8",
      "1+2 1+3 167+11 3+6 6+19 54+1 2+14 1+1 5+2 10+1 29+2 58+6 2+1 2+1 10 10+1 29+2 58+4",
      "4+1 2+1 4 30+1 3 11+2 58+7 1+2 1+1 21+1 22+2 4+2 58+6 2+1 2+1 9+1 10+1 30 59+4 3+2",
      "1+2 10 40+4 57+6 1+2 1+2 8+1 11+1 29+2 58+6 1+2 1+2 8+1 11+1 15 12+3 58+6 1+2 1+2 10",
      "10+1 29+2 75+5 1 1+7 18+1 61 2+6 18 99 2+5 1+1 16 163+18 9+10 1+35 110+11 1 2+3 23+3",
      "4+2 1+2 2+6 3+3 13+11 1 10+3 1652+1 30+1 30+1 30+1 66+18 188+1 34 118+11 4+8 222+4",
      "57+9 2+19 74+1 11+2 49+4 48+14 60+2 30+8 2+1 57+10 50+18 432+13 1729+51 2294+31",
      "30836+7 34+1 354 8 23+4 88+1 50+15 1 57 38+4 28+11 45+3 48+11 37 67+13 12 8+1 45+2 50",
      "1+2 2+1 5 44+4 5 237+7 20275 2135+4 1670+2 1+1 5+3 788+3 387+1 339+2 53+13 45+1 11+2",
      "45+8 9 61+2 36+11 18+1 57+2 48+12 14+1 92+8 2 6 2 157+9 23+3 58+6 2+1 2+1 10 10+1",
      "209+12 1+2 106+17 237+6 2+6 29+1 82+14 1 106+10 103+13 257+12 247+5 1+1 2+1 3 1 142+6",
      "2+5 4 28+9 42+4 1+3 18+10 46+13 407+7 1+6 83+21 1+13 122+5 3 1+1 1+2 1 3 66+4 1+1 1+3",
      "348+3 9+1 1 48+6 3+2 20494 1+54 7+3 93+1 19628 9057+6 1+16 2+6 1+1 1+4 100 2231",
      "2024+25 6+25 6+25"],
    []⟩,
  ⟨"ASCII_Hex_Digit AHex",
    "",
    ["48+9 7+5 26+5"],
    []⟩,
  ⟨"Bidi_Control Bidi_C",
    "",
    ["1564 6641+1 26+4 55+3"],
    []⟩,
  ⟨"Bidi_Mirrored Bidi_M",
    "Pe Pf Pi Ps",
    [
      "60 1 8449 192+3 3+5 3 3+1 3+3 1+3 1 1 4+8 5 1+17 5+3 9+1 1 1+7 2+30 2+3 5 9+1 2+18",
      "5+1 9+4 2+1 4+23 2+15 32+1 1182 2+1 3+1 1+2 5+3 5+2 3+3 437+5 1+13 8 7+5 3 4+4 1+1 6",
      "4 1+2 2+1 10+5 16+18 1+3 2 1 2 1+3 5+1 6+2 24+1 11+1 4+3 1+1 2+1 4+42 2+7 1+39 5 1",
      "3+4 5+2 4 3+4 1 256 53861+1 182 1 55228 57 57 57 57"],
    ["8216+7 3618 474+2 52510+1 215+1 28+15 2+1"]⟩,
  ⟨"Case_Ignorable CI",
    "Cf Lm Me Mn Sk",
    ["39 6 11 124 719 471 148 6691+1 10 2 56811 62 2 177 6 11"],
    []⟩,
  ⟨"Cased",
    "Ll Lt Lu",
    [
      "170 15 501+8 7+1 30+4 96 52 3457 3119+62 13 34+36 689 13 16+12 195+31 822+51 1938+1",
      "31262+1 210 129+2 3+1 866+3 9 23574 2+2 1+41 1+8 55413+61 4290+25 6+25 6+25"],
    []⟩,
  ⟨"Changes_When_Casefolded CWCF",
    "Lt Lu",
    [
      "181 41 105 53 453 124 13+1 3+1 25+1 3 401 3696+5 2178+8 529+1 228+7 8+7 8+7 10+2 2",
      "10+2 2 42+2 2 360+15 838+25 34464+79 20288+6 12+4"],
    [
      "978+2 4043+85 3340 4 3+2 2+2 2 3+4 6 3 3+1 2+1 1 10+1 5 111290+25 26+25 26+25 26 1+1",
      "2 2+1 2+3 1+7 26+25 26+1 1+3 2+7 1+6 27+1 1+3 1+4 1 3+6 27+25 26+25 26+25 26+25 26+25",
      "26+25 30+24 33+24 33+24 33+24 33+24 33"]⟩,
  ⟨"Changes_When_Casemapped CWCM",
    "Ll Lt Lu",
    ["837 7706+31 822+51"],
    [
      "312 84 13 14+1 14 3 98 18+5 27 2 1 2+2 2 1 2 5+1 1 2+1 1+6 1+1 1 2+2 6+4 1 1+7 2+16",
      "290+2 39 355 39 6007+43 63+12 2+2 1+15 1+11 257+1 1 610 4 2+9 1 3+4 6 3 3+1 1+2 1+1 4",
      "2+3 5+4 2855 2 2+4 104 31307+1 63+7 21 6 25 35 1 36 821+34 1+6 5+8 75927+84 1+70 1+1",
      "2 2+1 2+3 1+11 1 1+6 1+64 1+3 2+7 1+6 1+27 1+3 1+4 1 3+6 1+339 2+24 1+24 1+30 1+24",
      "1+30 1+24 1+30 1+24 1+30 1+24 1+7 1844+9 1+19 6+5"]⟩,
  ⟨"Changes_When_Lowercased CWL",
    "Lt Lu",
    ["8544+15 838+25"],
    [
      "978+2 7469 4 3+2 2+2 2 3+4 6 3 3+1 2+1 1 10+1 5 111290+25 26+25 26+25 26 1+1 2 2+1",
      "2+3 1+7 26+25 26+1 1+3 2+7 1+6 27+1 1+3 1+4 1 3+6 27+25 26+25 26+25 26+25 26+25 26+25",
      "30+24 33+24 33+24 33+24 33+24 33"]⟩,
  ⟨"Changes_When_Titlecased CWT",
    "Ll",
    ["452 2 2 38 339 7722+15 848+25"],
    [
      "312 84 13 14+1 14 3 98 18+5 27 2 1 2+2 2 1 2 5+1 1 2+1 1+6 1+1 1 2+2 6+4 1 1+7 2+16",
      "332 355 39 2887+42 2+2 3072+43 63+12 2+2 1+15 1+11 257+1 1 618 3+1 3 27 4 4 2+1 8+3",
      "2855 2 2+4 104 31307+1 63+7 21 6 25 35 1 36 821+34 1+6 5+8 75953+25 26+6 1+17 26+25",
      "26+3 1 1+6 1+10 26+25 26+25 26+25 26+25 26+25 26+25 26+25 26+25 26+27 28+24 1+5 26+24",
      "1+5 26+24 1+5 26+24 1+5 26+24 1+5 1 1844+9 1+19 6+5"]⟩,
  ⟨"Changes_When_Uppercased CWU",
    "Ll Lt",
    ["837 7722+15 848+25"],
    [
      "312 84 13 14+1 14 3 98 18+5 27 2 1 2+2 2 1 2 5+1 1 2+1 1+6 1+1 1 2+2 6+4 1 1+7 2+16",
      "332 355 39 6007+43 63+12 2+2 1+15 1+11 257+1 1 618 3+1 3 27 4 4 2+1 8+3 2855 2 2+4",
      "104 31307+1 63+7 21 6 25 35 1 36 821+34 1+6 5+8 75953+25 26+6 1+17 26+25 26+3 1 1+6",
      "1+10 26+25 26+25 26+25 26+25 26+25 26+25 26+25 26+25 26+27 28+24 1+5 26+24 1+5 26+24",
      "1+5 26+24 1+5 26+24 1+5 1 1844+9 1+19 6+5"]⟩,
  ⟨"Dash",
    "Pd",
    ["8275 39 15 390"],
    []⟩,
  ⟨"Default_Ignorable_Code_Point DI",
    "",
    [
      "173 673 716 2882+1 1619+1 85+4 2043+4 26+4 49+15 4340 52379+15 239 160 79+8 48295+3",
      "5327+7 798341+4095"],
    []⟩,
  ⟨"Deprecated Dep",
    "",
    ["329 1321 2307 1 2089+1 2245+5 697+1 908502"],
    []⟩,
  ⟨"Diacritic Dia",
    "Sk",
    [
      "183 504+17 4+11 14+4 7 1 17+78 1+7 5+5 17 5 264+4 209 55+16 1+26 1 1+1 1 134+7 4+1",
      "134+1 4+1 3+2 67+26 91+10 58+10 34+1 126+7 41+9 16+27 61 16 3+3 28 74 16 110 16 110",
      "16 47+2 60 16 7 119 110 16 110 16 109+1 16 124 124+5 1 107 13+4 75+1 27 1 1 4+1 66+2",
      "1+1 62 112 1+1 40+1 4+4 25+6 1 10+1 705+2 948+1 179+10 9 347+2 313+7 2 48+14 2+10 104",
      "15 38+8 54+1 138+1 64+5 82+24 4 6 2+2 50+62 89+11 37+10 3823+2 317 506+5 105+1 97",
      "30066 12+1 1 28+1 82+1 37+8 104 111+1 202 27+17 57+3 36 95 12 36 149+2 65+3 51 101+3",
      "9 130+1 20272 769+15 320 45+1 832 1183+5 1+41 1+8 810+1 571+5 469+2 70+10 49+3 192 41",
      "72+1 120+1 62 76 9+2 104+1 178+1 81 16 24+6 3+4 205 3 123+1 251+1 126 118+1 115 269+1",
      "258+1 4 156 83 18 81 421 258 1+1 81 5807+14 13978+4 59+6 1112+16 80+1 16382+3 1+6 1+1",
      "7937+45 2+22 544+2 3+5 8+7 2+6 30+3 3714+61 194+6 375 61+3 1504+6 109+2 1+2"],
    ["2184 62249+16 63544+4"]⟩,
  ⟨"Emoji",
    "",
    [
      "35 6 5+9 111 4 8077 12 216 22 90+5 15+1 367+1 12 166 25+10 4+2 199 231+1 10 9 58+3",
      "1+4 9 2 2+1 2 4 2 1+1 2 3 3+1 8+2 5 1 5+11 11+1 2 1+1 1 18 2+1 18+5 1 1+1 3+1 5 2+1",
      "4+1 11+1 5+1 2 5+1 1 1+1 20+1 5+5 1+3 2 4 2 2+5 1 2 1 1 6 3 6 10+1 15 2 4 1 4+2 1",
      "11+1 48+2 9 14 14 372+1 463+2 19+1 51 4 1242 12 601 1 114026 202 160+1 12+1 14 2+9",
      "75+25 1+1 23 20 2+8 21+1 174+33 2+111 2+1 1+2 2+82 2+2 1+262 1+62 11+5 1+23 7+1 2+7",
      "12 2+3 2 4+1 13+1 2 8+1 9 5+2 12+2 8+2 2 1 4 6 3 6+85 48+69 5+7 2+2 4+9 3 1+1 3 2+9",
      "227+11 4 283+46 1+9 1+184 112+12 3+8 7+45 1+6 8+13 4+8 7+8"],
    []⟩,
  ⟨"Emoji_Component EComp",
    "",
    ["35 6 5+9 8147 213 56619 62422+25 507+4 1456+3 788076+95"],
    []⟩,
  ⟨"Emoji_Modifier EMod",
    "",
    ["127995+4"],
    []⟩,
  ⟨"Emoji_Modifier_Base EBase",
    "",
    [
      "9757 219 16+3 117879 60+2 2 2+2 117+1 2+10 21+18 3 4+2 1+2 7 1 24 201+1 4 21 4+1",
      "174+2 3+4 83 16+2 9 11 575 2 8+7 6 9+9 2+2 56 61+1 1+1 1 17+2 1+12 229+2 42+8"],
    []⟩,
  ⟨"Emoji_Presentation EPres",
    "",
    [
      "8986+1 205+3 3 2 521+1 21+1 50+11 43 19 13 8+1 17+1 5+1 8 5 21 7+1 1 4 2 7 4+1 28 35",
      "1 4+2 1 61+2 24 14 859+1 51 4 115886 202 190 2+9 75+25 1 24 20 2+4 1+2 21+1 174+32",
      "12+8 1+69 1+21 12+42 4+4 12+16 3 3+70 1 1+186 2+62 13+3 1+23 18 26+1 13 86+84 48+69 6",
      "3+2 2+2 4+3 11+1 7+8 227+11 4 283+46 1+9 1+184 112+12 3+8 7+45 1+6 8+13 4+8 7+8"],
    []⟩,
  ⟨"Extended_Pictographic ExtPict",
    "",
    [
      "169 4 8077 12 216 22 90+5 15+1 367+1 12 95 70 25+10 4+2 199 231+1 10 9 58+3 1+5 1+11",
      "1+113 10+117 2+10 1 1 6 3 6 10+1 15 2 4 1 4+2 1 11+4 45+2 9 14 14 372+1 463+2 19+1 51",
      "4 1242 12 601 1 114022+255 13+2 31 60+5 12+1 14 2+9 18+56 27+14 10 20 2+8 1+3 9+433",
      "5+317 8+265 48+127 116+11 85+42 12+3 56+7 10+5 40+7 30+81 12+46 1+9 1+440 256+1021"],
    []⟩,
  ⟨"Extender Ext",
    "",
    [
      "183 536+1 878 441 858 752 127 2371 56 611 398 68 5001 43+4 103+1 93+2 28438 1526 962",
      "22 137 108 21+1 21627 2064+1 3034 616+2 1231 20649+1 1180+1 1 29016+1 2054+2"],
    []⟩,
  ⟨"Grapheme_Base Gr_Base",
    "Ll Lm Lo Lt Lu Mc Nd Nl No Pc Pd Pe Pf Pi Po Ps Sc Sk Sm So Zs",
    [],
    [
      "2494 24 358 24 102 24 234 18+1 103 24 119 15 3413 5368+1 53102+1 5022 24 344 12 241",
      "896 47156 8+4"]⟩,
  ⟨"Grapheme_Extend Gr_Ext",
    "Me Mn",
    [
      "2494 24 358 24 102 24 234 18+1 103 24 119 15 3413 1238 4129+1 53102+1 5022 24 344 12",
      "241 896 47156 8+4 798381+95"],
    []⟩,
  ⟨"Hex_Digit Hex",
    "",
    ["48+9 7+5 26+5 65193+9 7+5 26+5"],
    []⟩,
  ⟨"Hyphen",
    "",
    ["45 127 1244 4731 2057+1 3589 739 52583 169 87"],
    []⟩,
  ⟨"IDS_Binary_Operator IDSB",
    "",
    ["12272+1 2+7"],
    []⟩,
  ⟨"IDS_Trinary_Operator IDST",
    "",
    ["12274+1"],
    []⟩,
  ⟨"ID_Continue IDC",
    "Ll Lm Lo Lt Lu Mc Mn Nd Nl Pc",
    ["183 719 4065+8 1640 1853 21 3948+1"],
    ["11823"]⟩,
  ⟨"ID_Start IDS",
    "Ll Lm Lo Lt Lu Nl",
    ["6277+1 2193 21 3948+1"],
    ["11823"]⟩,
  ⟨"Ideographic Ideo",
    "",
    [
      "12294+1 25+8 14+2 965+6591 64+20991 22784+365 2+105 29962 27+6135 8+1237 42+8",
      "9319+395 19716+42719 32+4153 6+221 2+5761 14+7472 3103+541 1506+4938 5+4191"],
    []⟩,
  ⟨"Join_Control Join_C",
    "",
    ["8204+1"],
    []⟩,
  ⟨"Logical_Order_Exception LOE",
    "",
    ["3648+4 123+4 2800+2 2 37114+1 2 1+1"],
    []⟩,
  ⟨"Lowercase Lower",
    "Ll",
    [
      "170 15 501+8 7+1 30+4 96 52 3457 3119+62 13 34+36 689 13 16+12 211+15 848+25 1938+1",
      "31262+1 210 129+2 3+1 866+3 9 23574 2+2 1+41 1+8 55413+61"],
    []⟩,
  ⟨"Math",
    "Sm",
    [
      "94 881+2 2 26+1 2+1 7200 27+2 11 32+3 24+1 14+1 65+12 4 3+1 4+4 18 4 2+9 1 3+4 6 3+1",
      "2+1 1+2 1+5 3+3 5+4 75+4 2+3 1+1 1+1 1 1+4 2+1 4+1 4+17 2+1 1 1+6 1 6+1 290+3 168+1 1",
      "24 17 445+1 12+8 5+4 5+1 2+1 3+4 14 1 2+5 24+1 57 1 29+3 9+1 342+1 31+9 403+21 63+3",
      "32+1 54371 1 4 211 1 54465+84 1+70 1+1 2 2+1 2+3 1+11 1 1+6 1+64 1+3 2+7 1+6 1+27 1+3",
      "1+4 1 3+6 1+339 2+24 1+24 1+30 1+24 1+30 1+24 1+30 1+24 1+30 1+24 1+7 2+49 5632+3",
      "1+26 1+1 1 2 1+9 1+3 1 1 6 4 1 1 1+2 1+1 1 2 1 1 1 1 1+1 1 2+3 1+6 1+3 1+3 1 1+9 1+16",
      "5+2 1+4 1+16"],
    []⟩,
  ⟨"Noncharacter_Code_Point NChar",
    "",
    [
      "64976+31 526+1 65534+1 65534+1 65534+1 65534+1 65534+1 65534+1 65534+1 65534+1",
      "65534+1 65534+1 65534+1 65534+1 65534+1 65534+1 65534+1 65534+1"],
    []⟩,
  ⟨"Pattern_Syntax Pat_Syn",
    "Pe Pf Pi Ps",
    [
      "33+6 2+5 10+6 27 1 1 27 1 34+6 1 2 1 1+1 4 8 23 31 7960+7 8+7 8+8 2+3 2+3 2+12 1+9",
      "305+375 4+28 2+308 160+615 44+48 2+30 10+402 22+62 4+31 2+513 512+1 4+2 2 2+13 2+1",
      "10+23 1+17 8+34 385+2 14+1 8 3 15 52756+1"],
    [
      "3898+3 1885+1 2528+1 14+1 56712+1 28+15 2+1 16+5 169+1 49 1 29 1 1+1 1+1"]⟩,
  ⟨"Pattern_White_Space Pat_WS",
    "Zl Zp",
    ["9+4 18 100 8072+1"],
    []⟩,
  ⟨"Prepended_Concatenation_Mark PCM",
    "",
    ["1536+5 215 49 384+1 80 67546 15"],
    []⟩,
  ⟨"Quotation_Mark QMark",
    "",
    ["34 4 131 15 8028+7 25+1 3591 457+3 13+2 52769+3 189 4 90+1"],
    []⟩,
  ⟨"Radical",
    "",
    ["11904+25 1+88 12+213"],
    []⟩,
  ⟨"Regional_Indicator RI",
    "",
    ["127462+25"],
    []⟩,
  ⟨"Sentence_Terminal STerm",
    "",
    [
      "33 12 16 1353 147+2 180 43+2 246 61 1 3+1 293+1 1764+1 790 4+1 773 198+1 204 5 314+1",
      "354+3 174+1 2+1 29+1 188+1 65+1 956+1 9+2 3556 13 22+1 429 29948 270+1 227 3 382+1",
      "86+1 95 152+1 147+2 144+1 249 21094 3+1 169 12 16 65 2804+1 1277+4 44+3 189+1 117+3",
      "127+2 129+1 6 16+1 88+1 1+1 108 417+1 373+1 5+14 105+1 249+2 517 1 251+1 87+1 420+1",
      "692+1 74+1 19241+1 133 65+1 11 851 19974 7656"],
    []⟩,
  ⟨"Soft_Dotted SD",
    "",
    [
      "105+1 196 281 30 52 20 320 98 1 6409 51 13 3 132 157 421 214+1 2866 108453+1 50+1",
      "50+1 50+1 50+1 50+1 50+1 50+1 50+1 50+1 50+1 50+1 50+1 2182 305+1 26"],
    []⟩,
  ⟨"Terminal_Punctuation Term",
    "",
    [
      "33 10 1 11+1 3 830 8 513 57 72 14 1+2 180 43+10 1 235+1 54+14 31 261+1 1268+1 172 4+5",
      "311+1 789+7 773 124+2 71+1 157+2 3 39+3 2+1 314+1 354+3 174+1 1+2 29+1 188+4 62+1",
      "956+1 9+2 3556 13 4 10 1+1 3+1 428+1 29947+1 269+2 227+4 382+1 86+1 95 151+2 147+2",
      "127 16+1 249 21092+2 1+3 169 10 1 11+1 3 65 2 1082 48 1158 199 310+1 152+5 68+5 89+3",
      "952+4 44+3 189+6 112+3 127+2 129+1 6 16+1 88+4 108 417+2 12+1 358+3 3+14 105+1 249+2",
      "517 1 251+1 87+1 4+1 414+2 45 645+1 74+1 1323+4 17913+1 133 65+2 10 850+1 19974",
      "7655+3"],
    []⟩,
  ⟨"Unified_Ideograph UIdeo",
    "",
    [
      "13312+6591 64+20991 23054+1 1 1+1 10 1 1+1 2+2 67030+42719 32+4153 6+221 2+5761",
      "14+7472 5151+4938 5+4191"],
    []⟩,
  ⟨"Uppercase Upper",
    "Lu",
    ["8544+15 838+25 117856+25 6+25 6+25"],
    []⟩,
  ⟨"Variation_Selector VS",
    "",
    ["6155+2 1 58864+15 852720+239"],
    []⟩,
  ⟨"White_Space Space WSpace",
    "Zl Zp Zs",
    ["9+4 119"],
    []⟩,
  ⟨"XID_Continue XIDC",
    "Ll Lm Lo Lt Lu Mc Mn Nd Nl Pc",
    ["183 719 4065+8 1640 1853 21"],
    ["890 10932 52782+5 406+1 116 1 1 1 1 1 1 1"]⟩,
  ⟨"XID_Start XIDS",
    "Ll Lm Lo Lt Lu Nl",
    ["6277+1 2193 21"],
    ["890 2744 127 8059 52782+5 406+1 116 1 1 1 1 1 1 1 287+1"]⟩]

end JsonRules.Unicode
