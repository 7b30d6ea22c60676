/-!
# Runs of scripts

The script of every code point from zero on, as runs: a script's four letters and the number
of consecutive code points that have it, left out when it is one.
-/

namespace JsonRules.Unicode

def scriptRuns : List String := [
  "Zyyy65Latn26Zyyy6Latn26Zyyy47LatnZyyy15LatnZyyy5Latn23ZyyyLatn31ZyyyLatn449Zyyy39Latn5",
  "Zyyy5Bopo2Zyyy20Zinh112Grek4ZyyyGrek3Zzzz2Grek4ZyyyGrekZzzz4GrekZyyyGrekZyyyGrek3Zzzz",
  "GrekZzzzGrek20ZzzzGrek63Copt14Grek16Cyrl133Zinh2Cyrl169ZzzzArmn38Zzzz2Armn50Zzzz2Armn3",
  "ZzzzHebr55Zzzz8Hebr27Zzzz4Hebr6Zzzz11Arab5ZyyyArab6ZyyyArab14ZyyyArab3ZyyyArab32Zyyy",
  "Arab10Zinh11Arab26ZinhArab108ZyyyArab34Syrc14ZzzzSyrc60Zzzz2Syrc3Arab48Thaa50Zzzz14",
  "Nkoo59Zzzz2Nkoo3Samr46Zzzz2Samr15ZzzzMand28Zzzz2MandZzzzSyrc11Zzzz5Arab31ZzzzArab2Zzzz6",
  "Arab74ZyyyArab29Deva81Zinh4Deva15Zyyy2Deva26Beng4ZzzzBeng8Zzzz2Beng2Zzzz2Beng22ZzzzBeng7",
  "ZzzzBengZzzz3Beng4Zzzz2Beng9Zzzz2Beng2Zzzz2Beng4Zzzz8BengZzzz4Beng2ZzzzBeng5Zzzz2Beng25",
  "Zzzz2Guru3ZzzzGuru6Zzzz4Guru2Zzzz2Guru22ZzzzGuru7ZzzzGuru2ZzzzGuru2ZzzzGuru2Zzzz2Guru",
  "ZzzzGuru5Zzzz4Guru2Zzzz2Guru3Zzzz3GuruZzzz7Guru4ZzzzGuruZzzz7Guru17Zzzz10Gujr3ZzzzGujr9",
  "ZzzzGujr3ZzzzGujr22ZzzzGujr7ZzzzGujr2ZzzzGujr5Zzzz2Gujr10ZzzzGujr3ZzzzGujr3Zzzz2Gujr",
  "Zzzz15Gujr4Zzzz2Gujr12Zzzz7Gujr7ZzzzOrya3ZzzzOrya8Zzzz2Orya2Zzzz2Orya22ZzzzOrya7Zzzz",
  "Orya2ZzzzOrya5Zzzz2Orya9Zzzz2Orya2Zzzz2Orya3Zzzz7Orya3Zzzz4Orya2ZzzzOrya5Zzzz2Orya18",
  "Zzzz10Taml2ZzzzTaml6Zzzz3Taml3ZzzzTaml4Zzzz3Taml2ZzzzTamlZzzzTaml2Zzzz3Taml2Zzzz3Taml3",
  "Zzzz3Taml12Zzzz4Taml5Zzzz3Taml3ZzzzTaml4Zzzz2TamlZzzz6TamlZzzz14Taml21Zzzz5Telu13Zzzz",
  "Telu3ZzzzTelu23ZzzzTelu16Zzzz2Telu9ZzzzTelu3ZzzzTelu4Zzzz7Telu2ZzzzTelu3Zzzz2TeluZzzz2",
  "Telu4Zzzz2Telu10Zzzz7Telu9Knda13ZzzzKnda3ZzzzKnda23ZzzzKnda10ZzzzKnda5Zzzz2Knda9Zzzz",
  "Knda3ZzzzKnda4Zzzz7Knda2Zzzz6Knda2ZzzzKnda4Zzzz2Knda10ZzzzKnda3Zzzz12Mlym13ZzzzMlym3Zzzz",
  "Mlym51ZzzzMlym3ZzzzMlym6Zzzz4Mlym16Zzzz2Mlym26ZzzzSinh3ZzzzSinh18Zzzz3Sinh24ZzzzSinh9",
  "ZzzzSinhZzzz2Sinh7Zzzz3SinhZzzz4Sinh6ZzzzSinhZzzzSinh8Zzzz6Sinh10Zzzz2Sinh3Zzzz12Thai58",
  "Zzzz4ZyyyThai28Zzzz37Laoo2ZzzzLaooZzzzLaoo5ZzzzLaoo24ZzzzLaooZzzzLaoo23Zzzz2Laoo5Zzzz",
  "LaooZzzzLaoo7ZzzzLaoo10Zzzz2Laoo4Zzzz32Tibt72ZzzzTibt36Zzzz4Tibt39ZzzzTibt36ZzzzTibt15",
  "ZzzzTibt7Zyyy4Tibt2Zzzz37Mymr160Geor38ZzzzGeorZzzz5GeorZzzz2Geor43ZyyyGeor4Hang256Ethi73",
  "ZzzzEthi4Zzzz2Ethi7ZzzzEthiZzzzEthi4Zzzz2Ethi41ZzzzEthi4Zzzz2Ethi33ZzzzEthi4Zzzz2Ethi7",
  "ZzzzEthiZzzzEthi4Zzzz2Ethi15ZzzzEthi57ZzzzEthi4Zzzz2Ethi67Zzzz2Ethi32Zzzz3Ethi26Zzzz6",
  "Cher86Zzzz2Cher6Zzzz2Cans640Ogam29Zzzz3Runr75Zyyy3Runr11Zzzz7Tglg22Zzzz9TglgHano21Zyyy2",
  "Zzzz9Buhd20Zzzz12Tagb13ZzzzTagb3ZzzzTagb2Zzzz12Khmr94Zzzz2Khmr10Zzzz6Khmr10Zzzz6Mong2",
  "Zyyy2MongZyyyMong20Zzzz6Mong89Zzzz7Mong43Zzzz5Cans70Zzzz10Limb31ZzzzLimb12Zzzz4Limb12",
  "Zzzz4LimbZzzz3Limb12Tale30Zzzz2Tale5Zzzz11Talu44Zzzz4Talu26Zzzz6Talu11Zzzz3Talu2Khmr32",
  "Bugi28Zzzz2Bugi2Lana63ZzzzLana29Zzzz2Lana11Zzzz6Lana10Zzzz6Lana14Zzzz2Zinh31Zzzz49Bali77",
  "Zzzz3Bali47ZzzzSund64Batk52Zzzz8Batk4Lepc56Zzzz3Lepc15Zzzz3Lepc3Olck48Cyrl9Zzzz7Geor43",
  "Zzzz2Geor3Sund8Zzzz8Zinh3ZyyyZinh13ZyyyZinh7Zyyy4ZinhZyyy6ZinhZyyy3Zinh2ZyyyZzzz5Latn38",
  "Grek5CyrlLatn49Grek5Latn4Grek5Latn13CyrlLatn70GrekZinh64Latn256Grek22Zzzz2Grek6Zzzz2",
  "Grek38Zzzz2Grek6Zzzz2Grek8ZzzzGrekZzzzGrekZzzzGrekZzzzGrek31Zzzz2Grek53ZzzzGrek15Zzzz",
  "Grek14Zzzz2Grek6ZzzzGrek19Zzzz2Grek3ZzzzGrek9ZzzzZyyy12Zinh2Zyyy87ZzzzZyyy11LatnZzzz2",
  "Zyyy11LatnZyyy15ZzzzLatn13Zzzz3Zyyy33Zzzz15Zinh33Zzzz15Zyyy38GrekZyyy3Latn2Zyyy6Latn",
  "Zyyy27LatnZyyy17Latn41Zyyy3Zzzz4Zyyy663Zzzz25Zyyy11Zzzz21Zyyy928Brai256Zyyy628Zzzz2",
  "Zyyy32ZzzzZyyy105Glag96Latn32Copt116Zzzz5Copt7Geor38ZzzzGeorZzzz5GeorZzzz2Tfng56Zzzz7",
  "Tfng2Zzzz14TfngEthi23Zzzz9Ethi7ZzzzEthi7ZzzzEthi7ZzzzEthi7ZzzzEthi7ZzzzEthi7ZzzzEthi7",
  "ZzzzEthi7ZzzzCyrl32Zyyy94Zzzz34Hani26ZzzzHani89Zzzz12Hani214Zzzz26Zyyy12Zzzz4Zyyy5Hani",
  "ZyyyHaniZyyy25Hani9Zinh4Hang2Zyyy8Hani4Zyyy4ZzzzHira86Zzzz2Zinh2Zyyy2Hira3ZyyyKana90",
  "Zyyy2Kana3Zzzz5Bopo43ZzzzHang94ZzzzZyyy16Bopo32Zyyy36Zzzz12Kana16Hang31ZzzzZyyy64Hang31",
  "Zyyy81Kana47ZyyyKana88Zyyy168Hani6592Zyyy64Hani20992Yiii1165Zzzz3Yiii55Zzzz9Lisu48",
  "Vaii300Zzzz20Cyrl96Bamu88Zzzz8Zyyy34Latn102Zyyy3Latn64Zzzz5Latn2ZzzzLatnZzzzLatn5Zzzz24",
  "Latn14Sylo45Zzzz3Zyyy10Zzzz6Phag56Zzzz8Saur70Zzzz8Saur12Zzzz6Deva32Kali46ZyyyKaliRjng36",
  "Zzzz11RjngHang29Zzzz3Java78ZzzzZyyyJava10Zzzz4Java2Mymr31ZzzzCham55Zzzz9Cham14Zzzz2",
  "Cham10Zzzz2Cham4Mymr32Tavt67Zzzz24Tavt5Mtei23Zzzz10Ethi6Zzzz2Ethi6Zzzz2Ethi6Zzzz9Ethi7",
  "ZzzzEthi7ZzzzLatn43ZyyyLatn9GrekLatn4Zyyy2Zzzz4Cher80Mtei46Zzzz2Mtei10Zzzz6Hang11172",
  "Zzzz12Hang23Zzzz4Hang49Zzzz8452Hani366Zzzz2Hani106Zzzz38Latn7Zzzz12Armn5Zzzz5Hebr26Zzzz",
  "Hebr5ZzzzHebrZzzzHebr2ZzzzHebr2ZzzzHebr10Arab115Zzzz16Arab363Zyyy2Arab80Zzzz2Arab54Zzzz7",
  "ArabZzzz32Arab16Zinh16Zyyy10Zzzz6Zinh14Cyrl2Zyyy35ZzzzZyyy19ZzzzZyyy4Zzzz4Arab5Zzzz",
  "Arab135Zzzz2ZyyyZzzzZyyy32Latn26Zyyy6Latn26Zyyy11Kana10ZyyyKana45Zyyy2Hang31Zzzz3Hang6",
  "Zzzz2Hang6Zzzz2Hang6Zzzz2Hang3Zzzz3Zyyy7ZzzzZyyy7Zzzz10Zyyy5Zzzz2Linb12ZzzzLinb26Zzzz",
  "Linb19ZzzzLinb2ZzzzLinb15Zzzz2Linb14Zzzz34Linb123Zzzz5Zyyy3Zzzz4Zyyy45Zzzz3Zyyy9Grek79",
  "ZzzzZyyy13Zzzz3GrekZzzz47Zyyy45ZinhZzzz130Lyci29Zzzz3Cari49Zzzz15ZinhZyyy27Zzzz4Ital36",
  "Zzzz9Ital3Goth27Zzzz5Perm43Zzzz5Ugar30ZzzzUgarXpeo36Zzzz4Xpeo14Zzzz42Dsrt80Shaw48Osma30",
  "Zzzz2Osma10Zzzz6Osge36Zzzz4Osge36Zzzz4Elba40Zzzz8Aghb52Zzzz11AghbVith11ZzzzVith15Zzzz",
  "Vith7ZzzzVith2ZzzzVith11ZzzzVith15ZzzzVith7ZzzzVith2Zzzz67Lina311Zzzz9Lina22Zzzz10Lina8",
  "Zzzz24Latn6ZzzzLatn42ZzzzLatn9Zzzz69Cprt6Zzzz2CprtZzzzCprt44ZzzzCprt2Zzzz3CprtZzzz2Cprt",
  "Armi22ZzzzArmi9Palm32Nbat31Zzzz8Nbat9Zzzz48Hatr19ZzzzHatr2Zzzz5Hatr5Phnx28Zzzz3Phnx",
  "Lydi26Zzzz5LydiZzzz64Mero32Merc24Zzzz4Merc20Zzzz2Merc46Khar4ZzzzKhar2Zzzz5Khar8ZzzzKhar3",
  "ZzzzKhar29Zzzz2Khar3Zzzz4Khar10Zzzz7Khar9Zzzz7Sarb32Narb32Zzzz32Mani39Zzzz4Mani12Zzzz9",
  "Avst54Zzzz3Avst7Prti22Zzzz2Prti8Phli19Zzzz5Phli8Phlp18Zzzz7Phlp4Zzzz12Phlp7Zzzz80Orkh73",
  "Zzzz55Hung51Zzzz13Hung51Zzzz7Hung6Rohg40Zzzz8Rohg10Zzzz294Arab31ZzzzYezi42ZzzzYezi3Zzzz2",
  "Yezi2Zzzz75Arab3Sogo40Zzzz8Sogd42Zzzz22Ougr26Zzzz38Chrs28Zzzz20Elym23Zzzz9Brah78Zzzz4",
  "Brah36Zzzz9BrahKthi67Zzzz10KthiZzzz2Sora25Zzzz7Sora10Zzzz6Cakm53ZzzzCakm18Zzzz8Mahj39",
  "Zzzz9Shrd96ZzzzSinh20Zzzz11Khoj18ZzzzKhoj47Zzzz62Mult7ZzzzMultZzzzMult4ZzzzMult15Zzzz",
  "Mult11Zzzz6Sind59Zzzz5Sind10Zzzz6Gran4ZzzzGran8Zzzz2Gran2Zzzz2Gran22ZzzzGran7ZzzzGran2",
  "ZzzzGran5ZzzzZinhGran9Zzzz2Gran2Zzzz2Gran3Zzzz2GranZzzz6GranZzzz5Gran7Zzzz2Gran7Zzzz3",
  "Gran5Zzzz139Newa92ZzzzNewa5Zzzz30Tirh72Zzzz8Tirh10Zzzz166Sidd54Zzzz2Sidd38Zzzz34Modi69",
  "Zzzz11Modi10Zzzz6Mong13Zzzz19Takr58Zzzz6Takr10Zzzz54Ahom27Zzzz2Ahom15Zzzz4Ahom23Zzzz185",
  "Dogr60Zzzz100Wara83Zzzz12WaraDiak7Zzzz2DiakZzzz2Diak8ZzzzDiak2ZzzzDiak30ZzzzDiak2Zzzz2",
  "Diak12Zzzz9Diak10Zzzz70Nand8Zzzz2Nand46Zzzz2Nand11Zzzz27Zanb72Zzzz8Soyo83Zzzz13Cans16",
  "Pauc57Zzzz7Deva10Zzzz246Bhks9ZzzzBhks45ZzzzBhks14Zzzz10Bhks29Zzzz3Marc32Zzzz2Marc22Zzzz",
  "Marc14Zzzz73Gonm7ZzzzGonm2ZzzzGonm44Zzzz3GonmZzzzGonm2ZzzzGonm9Zzzz8Gonm10Zzzz6Gong6Zzzz",
  "Gong2ZzzzGong37ZzzzGong2ZzzzGong6Zzzz7Gong10Zzzz310Maka25Zzzz7Kawi17ZzzzKawi41Zzzz3",
  "Kawi28Zzzz86LisuZzzz15Taml50Zzzz13TamlXsux922Zzzz102Xsux111ZzzzXsux5Zzzz11Xsux196",
  "Zzzz2636Cpmn99Zzzz13Egyp1110Zzzz4010Hluw583Zzzz8633Bamu569Zzzz7Mroo31ZzzzMroo10Zzzz4",
  "Mroo2Tnsa79ZzzzTnsa10Zzzz6Bass30Zzzz2Bass6Zzzz10Hmng70Zzzz10Hmng10ZzzzHmng7ZzzzHmng21",
  "Zzzz5Hmng19Zzzz688Medf91Zzzz101Plrd75Zzzz4Plrd57Zzzz7Plrd17Zzzz64TangNshuHani2KitsZzzz11",
  "Hani2Zzzz14Tang6136Zzzz8Tang768Kits470Zzzz42Tang9Zzzz8935Kana4ZzzzKana7ZzzzKana2ZzzzKana",
  "Hira287Kana3Zzzz15HiraZzzz29Hira3Zzzz2KanaZzzz14Kana4Zzzz8Nshu396Zzzz2308Dupl107Zzzz5",
  "Dupl13Zzzz3Dupl9Zzzz7Dupl10Zzzz2Dupl4Zyyy4Zzzz4700Zinh46Zzzz2Zinh23Zzzz9Zyyy116Zzzz60",
  "Zyyy246Zzzz10Zyyy39Zzzz2Zyyy62Zinh3Zyyy17Zinh8Zyyy2Zinh7Zyyy30Zinh4Zyyy61Zzzz21Grek70",
  "Zzzz122Zyyy20Zzzz12Zyyy20Zzzz12Zyyy87Zzzz9Zyyy25Zzzz135Zyyy85ZzzzZyyy71ZzzzZyyy2Zzzz2",
  "ZyyyZzzz2Zyyy2Zzzz2Zyyy4ZzzzZyyy12ZzzzZyyyZzzzZyyy7ZzzzZyyy65ZzzzZyyy4Zzzz2Zyyy8Zzzz",
  "Zyyy7ZzzzZyyy28ZzzzZyyy4ZzzzZyyy5ZzzzZyyyZzzz3Zyyy7ZzzzZyyy340Zzzz2Zyyy292Zzzz2Zyyy50",
  "Sgnw652Zzzz15Sgnw5ZzzzSgnw15Zzzz1104Latn31Zzzz6Latn6Zzzz213Glag7ZzzzGlag17Zzzz2Glag7Zzzz",
  "Glag2ZzzzGlag5Zzzz5Cyrl62Zzzz33CyrlZzzz112Hmnp45Zzzz3Hmnp14Zzzz2Hmnp10Zzzz4Hmnp2Zzzz320",
  "Toto31Zzzz17Wcho58Zzzz5WchoZzzz464Nagm42Zzzz742Ethi7ZzzzEthi4ZzzzEthi2ZzzzEthi15Zzzz",
  "Mend197Zzzz2Mend16Zzzz41Adlm76Zzzz4Adlm10Zzzz4Adlm2Zzzz785Zyyy68Zzzz76Zyyy61Zzzz194Arab4",
  "ZzzzArab27ZzzzArab2ZzzzArabZzzz2ArabZzzzArab10ZzzzArab4ZzzzArabZzzzArabZzzz6ArabZzzz4",
  "ArabZzzzArabZzzzArabZzzzArab3ZzzzArab2ZzzzArabZzzz2ArabZzzzArabZzzzArabZzzzArabZzzzArab",
  "ZzzzArab2ZzzzArabZzzz2Arab4ZzzzArab7ZzzzArab4ZzzzArab4ZzzzArabZzzzArab10ZzzzArab17Zzzz5",
  "Arab3ZzzzArab5ZzzzArab17Zzzz52Arab2Zzzz270Zyyy44Zzzz4Zyyy100Zzzz12Zyyy15Zzzz2Zyyy15Zzzz",
  "Zyyy15ZzzzZyyy37Zzzz10Zyyy174Zzzz56Zyyy26HiraZyyy2Zzzz13Zyyy44Zzzz4Zyyy9Zzzz7Zyyy2Zzzz14",
  "Zyyy6Zzzz154Zyyy984Zzzz4Zyyy17Zzzz3Zyyy13Zzzz3Zyyy119Zzzz4Zyyy95Zzzz6Zyyy12Zzzz4Zyyy",
  "Zzzz15Zyyy12Zzzz4Zyyy56Zzzz8Zyyy10Zzzz6Zyyy40Zzzz8Zyyy30Zzzz2Zyyy2Zzzz78Zyyy340Zzzz12",
  "Zyyy14Zzzz2Zyyy13Zzzz3Zyyy9Zzzz7Zyyy46ZzzzZyyy7Zzzz8Zyyy14Zzzz4Zyyy9Zzzz7Zyyy9Zzzz7",
  "Zyyy147ZzzzZyyy55Zzzz37Zyyy10Zzzz1030Hani42720Zzzz32Hani4154Zzzz6Hani222Zzzz2Hani5762",
  "Zzzz14Hani7473Zzzz3103Hani542Zzzz1506Hani4939Zzzz5Hani4192Zzzz711761ZyyyZzzz30Zyyy96",
  "Zzzz128Zinh240Zzzz196112"]

/-- The names of each script, the four letters first. -/
def scriptNames : List String := [
  "Adlm Adlam",
  "Aghb Caucasian_Albanian",
  "Ahom Ahom",
  "Arab Arabic",
  "Armi Imperial_Aramaic",
  "Armn Armenian",
  "Avst Avestan",
  "Bali Balinese",
  "Bamu Bamum",
  "Bass Bassa_Vah",
  "Batk Batak",
  "Beng Bengali",
  "Bhks Bhaiksuki",
  "Bopo Bopomofo",
  "Brah Brahmi",
  "Brai Braille",
  "Bugi Buginese",
  "Buhd Buhid",
  "Cakm Chakma",
  "Cans Canadian_Aboriginal",
  "Cari Carian",
  "Cham Cham",
  "Cher Cherokee",
  "Chrs Chorasmian",
  "Copt Coptic Qaac",
  "Cpmn Cypro_Minoan",
  "Cprt Cypriot",
  "Cyrl Cyrillic",
  "Deva Devanagari",
  "Diak Dives_Akuru",
  "Dogr Dogra",
  "Dsrt Deseret",
  "Dupl Duployan",
  "Egyp Egyptian_Hieroglyphs",
  "Elba Elbasan",
  "Elym Elymaic",
  "Ethi Ethiopic",
  "Geor Georgian",
  "Glag Glagolitic",
  "Gong Gunjala_Gondi",
  "Gonm Masaram_Gondi",
  "Goth Gothic",
  "Gran Grantha",
  "Grek Greek",
  "Gujr Gujarati",
  "Guru Gurmukhi",
  "Hang Hangul",
  "Hani Han",
  "Hano Hanunoo",
  "Hatr Hatran",
  "Hebr Hebrew",
  "Hira Hiragana",
  "Hluw Anatolian_Hieroglyphs",
  "Hmng Pahawh_Hmong",
  "Hmnp Nyiakeng_Puachue_Hmong",
  "Hung Old_Hungarian",
  "Ital Old_Italic",
  "Java Javanese",
  "Kali Kayah_Li",
  "Kana Katakana",
  "Kawi Kawi",
  "Khar Kharoshthi",
  "Khmr Khmer",
  "Khoj Khojki",
  "Kits Khitan_Small_Script",
  "Knda Kannada",
  "Kthi Kaithi",
  "Lana Tai_Tham",
  "Laoo Lao",
  "Latn Latin",
  "Lepc Lepcha",
  "Limb Limbu",
  "Lina Linear_A",
  "Linb Linear_B",
  "Lisu Lisu",
  "Lyci Lycian",
  "Lydi Lydian",
  "Mahj Mahajani",
  "Maka Makasar",
  "Mand Mandaic",
  "Mani Manichaean",
  "Marc Marchen",
  "Medf Medefaidrin",
  "Mend Mende_Kikakui",
  "Merc Meroitic_Cursive",
  "Mero Meroitic_Hieroglyphs",
  "Mlym Malayalam",
  "Modi Modi",
  "Mong Mongolian",
  "Mroo Mro",
  "Mtei Meetei_Mayek",
  "Mult Multani",
  "Mymr Myanmar",
  "Nagm Nag_Mundari",
  "Nand Nandinagari",
  "Narb Old_North_Arabian",
  "Nbat Nabataean",
  "Newa Newa",
  "Nkoo Nko",
  "Nshu Nushu",
  "Ogam Ogham",
  "Olck Ol_Chiki",
  "Orkh Old_Turkic",
  "Orya Oriya",
  "Osge Osage",
  "Osma Osmanya",
  "Ougr Old_Uyghur",
  "Palm Palmyrene",
  "Pauc Pau_Cin_Hau",
  "Perm Old_Permic",
  "Phag Phags_Pa",
  "Phli Inscriptional_Pahlavi",
  "Phlp Psalter_Pahlavi",
  "Phnx Phoenician",
  "Plrd Miao",
  "Prti Inscriptional_Parthian",
  "Rjng Rejang",
  "Rohg Hanifi_Rohingya",
  "Runr Runic",
  "Samr Samaritan",
  "Sarb Old_South_Arabian",
  "Saur Saurashtra",
  "Sgnw SignWriting",
  "Shaw Shavian",
  "Shrd Sharada",
  "Sidd Siddham",
  "Sind Khudawadi",
  "Sinh Sinhala",
  "Sogd Sogdian",
  "Sogo Old_Sogdian",
  "Sora Sora_Sompeng",
  "Soyo Soyombo",
  "Sund Sundanese",
  "Sylo Syloti_Nagri",
  "Syrc Syriac",
  "Tagb Tagbanwa",
  "Takr Takri",
  "Tale Tai_Le",
  "Talu New_Tai_Lue",
  "Taml Tamil",
  "Tang Tangut",
  "Tavt Tai_Viet",
  "Telu Telugu",
  "Tfng Tifinagh",
  "Tglg Tagalog",
  "Thaa Thaana",
  "Thai Thai",
  "Tibt Tibetan",
  "Tirh Tirhuta",
  "Tnsa Tangsa",
  "Toto Toto",
  "Ugar Ugaritic",
  "Vaii Vai",
  "Vith Vithkuqi",
  "Wara Warang_Citi",
  "Wcho Wancho",
  "Xpeo Old_Persian",
  "Xsux Cuneiform",
  "Yezi Yezidi",
  "Yiii Yi",
  "Zanb Zanabazar_Square",
  "Zinh Inherited Qaai",
  "Zyyy Common",
  "Zzzz Unknown"]

/-- Code points whose script extensions are not just their script: the first of them, how
many follow it, and the scripts. -/
def scriptExtensions : List String := [
  "834 Grek",
  "837 Grek",
  "867+12 Latn",
  "1155 Cyrl Perm",
  "1156 Cyrl Glag",
  "1157+1 Cyrl Latn",
  "1159 Cyrl Glag",
  "1548 Arab Nkoo Rohg Syrc Thaa Yezi",
  "1563 Arab Nkoo Rohg Syrc Thaa Yezi",
  "1564 Arab Syrc Thaa",
  "1567 Adlm Arab Nkoo Rohg Syrc Thaa Yezi",
  "1600 Adlm Arab Mand Mani Ougr Phlp Rohg Sogd Syrc",
  "1611+10 Arab Syrc",
  "1632+9 Arab Thaa Yezi",
  "1648 Arab Syrc",
  "1748 Arab Rohg",
  "2385 Beng Deva Gran Gujr Guru Knda Latn Mlym Orya Shrd Taml Telu Tirh",
  "2386 Beng Deva Gran Gujr Guru Knda Latn Mlym Orya Taml Telu Tirh",
  "2404 Beng Deva Dogr Gong Gonm Gran Gujr Guru Knda Mahj Mlym Nand Orya Sind Sinh Sylo Takr Taml Telu Tirh",
  "2405 Beng Deva Dogr Gong Gonm Gran Gujr Guru Knda Limb Mahj Mlym Nand Orya Sind Sinh Sylo Takr Taml Telu Tirh",
  "2406+9 Deva Dogr Kthi Mahj",
  "2534+9 Beng Cakm Sylo",
  "2662+9 Guru Mult",
  "2790+9 Gujr Khoj",
  "3046+13 Gran Taml",
  "3302+9 Knda Nand",
  "4160+9 Cakm Mymr Tale",
  "4347 Geor Latn",
  "5941+1 Buhd Hano Tagb Tglg",
  "6146+1 Mong Phag",
  "6149 Mong Phag",
  "7376 Beng Deva Gran Knda",
  "7377 Deva",
  "7378 Beng Deva Gran Knda",
  "7379 Deva Gran",
  "7380 Deva",
  "7381+1 Beng Deva",
  "7383 Deva Shrd",
  "7384 Beng Deva",
  "7385 Deva Shrd",
  "7386 Deva Knda Mlym Orya Taml Telu",
  "7387 Deva",
  "7388+1 Deva Shrd",
  "7390+1 Deva",
  "7392 Deva Shrd",
  "7393 Beng Deva",
  "7394+6 Deva",
  "7401 Deva Nand",
  "7402 Beng Deva",
  "7403+1 Deva",
  "7405 Beng Deva",
  "7406+3 Deva",
  "7410 Beng Deva Gran Knda Nand Orya Telu Tirh",
  "7411 Deva Gran",
  "7412 Deva Gran Knda",
  "7413+1 Beng Deva",
  "7415 Beng",
  "7416+1 Deva Gran",
  "7418 Nand",
  "7616+1 Grek",
  "7672 Cyrl Syrc",
  "7674 Syrc",
  "8239 Latn Mong",
  "8432 Deva Gran Latn",
  "11843 Cyrl Glag",
  "12289+1 Bopo Hang Hani Hira Kana Yiii",
  "12291 Bopo Hang Hani Hira Kana",
  "12294 Hani",
  "12296+9 Bopo Hang Hani Hira Kana Yiii",
  "12307 Bopo Hang Hani Hira Kana",
  "12308+7 Bopo Hang Hani Hira Kana Yiii",
  "12316+3 Bopo Hang Hani Hira Kana",
  "12330+3 Bopo Hani",
  "12336 Bopo Hang Hani Hira Kana",
  "12337+4 Hira Kana",
  "12343 Bopo Hang Hani Hira Kana",
  "12348+1 Hani Hira Kana",
  "12350+1 Hani",
  "12441+3 Hira Kana",
  "12448 Hira Kana",
  "12539 Bopo Hang Hani Hira Kana Yiii",
  "12540 Hira Kana",
  "12688+15 Hani",
  "12736+35 Hani",
  "12832+39 Hani",
  "12928+48 Hani",
  "12992+11 Hani",
  "13055 Hani",
  "13144+24 Hani",
  "13179+4 Hani",
  "13280+30 Hani",
  "42607 Cyrl Glag",
  "42752+7 Hani Latn",
  "43056+2 Deva Dogr Gujr Guru Khoj Knda Kthi Mahj Mlym Modi Nand Sind Takr Tirh",
  "43059+2 Deva Dogr Gujr Guru Khoj Knda Kthi Mahj Modi Nand Sind Takr Tirh",
  "43062+3 Deva Dogr Gujr Guru Khoj Kthi Mahj Modi Sind Takr Tirh",
  "43249 Beng Deva",
  "43251 Deva Taml",
  "43310 Kali Latn Mymr",
  "43471 Bugi Java",
  "64830+1 Arab Nkoo",
  "65010 Arab Thaa",
  "65021 Arab Thaa",
  "65093+1 Bopo Hang Hani Hira Kana",
  "65377+4 Bopo Hang Hani Hira Kana Yiii",
  "65392 Hira Kana",
  "65438+1 Hira Kana",
  "65792+1 Cpmn Cprt Linb",
  "65794 Cprt Linb",
  "65799+44 Cprt Lina Linb",
  "65847+8 Cprt Linb",
  "66272+27 Arab Copt",
  "68338 Mani Ougr",
  "70401 Gran Taml",
  "70403 Gran Taml",
  "70459+1 Gran Taml",
  "73680+1 Gran Taml",
  "73683 Gran Taml",
  "113824+3 Dupl",
  "119648+17 Hani",
  "127568+1 Hani"]

end JsonRules.Unicode
