/-
# Lower case

The simple lower-case mapping of Unicode 15, one character to one character, and the
comparison of texts that ignores case.
-/

namespace RdfMapping.Text

/-! ## The mapping -/

/-- Runs of characters and the lower-case form of the first: the others follow in order. -/
def lowerRuns : List (Nat × Nat × Nat) :=
  [(65, 90, 97), (192, 214, 224), (216, 222, 248), (393, 394, 598), (433, 434, 650),
    (904, 906, 941), (910, 911, 973), (913, 929, 945), (931, 939, 963), (1021, 1023, 891),
    (1024, 1039, 1104), (1040, 1071, 1072), (1329, 1366, 1377), (4256, 4293, 11520),
    (5024, 5103, 43888), (5104, 5109, 5112), (7312, 7354, 4304), (7357, 7359, 4349),
    (7944, 7951, 7936), (7960, 7965, 7952), (7976, 7983, 7968), (7992, 7999, 7984),
    (8008, 8013, 8000), (8040, 8047, 8032), (8072, 8079, 8064), (8088, 8095, 8080),
    (8104, 8111, 8096), (8120, 8121, 8112), (8122, 8123, 8048), (8136, 8139, 8050),
    (8152, 8153, 8144), (8154, 8155, 8054), (8168, 8169, 8160), (8170, 8171, 8058),
    (8184, 8185, 8056), (8186, 8187, 8060), (8544, 8559, 8560), (9398, 9423, 9424),
    (11264, 11311, 11312), (11390, 11391, 575), (65313, 65338, 65345), (66560, 66599, 66600),
    (66736, 66771, 66776), (66928, 66938, 66967), (66940, 66954, 66979), (66956, 66962, 66995),
    (66964, 66965, 67003), (68736, 68786, 68800), (71840, 71871, 71872), (93760, 93791, 93792),
    (125184, 125217, 125218)]

/-- Runs in which a character and its lower-case form take turns. -/
def lowerTurns : List (Nat × Nat) :=
  [(256, 302), (306, 310), (313, 327), (330, 374), (377, 381), (386, 388), (391, 391), (395, 395),
    (401, 401), (408, 408), (416, 420), (423, 423), (428, 428), (431, 431), (435, 437), (440, 440),
    (444, 444), (453, 453), (456, 456), (459, 475), (478, 494), (498, 500), (504, 542), (546, 562),
    (571, 571), (577, 577), (582, 590), (880, 882), (886, 886), (984, 1006), (1015, 1015),
    (1018, 1018), (1120, 1152), (1162, 1214), (1217, 1229), (1232, 1326), (7680, 7828),
    (7840, 7934), (8579, 8579), (11360, 11360), (11367, 11371), (11378, 11378), (11381, 11381),
    (11392, 11490), (11499, 11501), (11506, 11506), (42560, 42604), (42624, 42650), (42786, 42798),
    (42802, 42862), (42873, 42875), (42878, 42886), (42891, 42891), (42896, 42898), (42902, 42920),
    (42932, 42946), (42951, 42953), (42960, 42960), (42966, 42968), (42997, 42997)]

/-- Characters with a lower-case form that belong to no run. -/
def lowerForms : List (Nat × Nat) :=
  [(304, 105), (376, 255), (385, 595), (390, 596), (398, 477), (399, 601), (400, 603), (403, 608),
    (404, 611), (406, 617), (407, 616), (412, 623), (413, 626), (415, 629), (422, 640), (425, 643),
    (430, 648), (439, 658), (452, 454), (455, 457), (458, 460), (497, 499), (502, 405), (503, 447),
    (544, 414), (570, 11365), (573, 410), (574, 11366), (579, 384), (580, 649), (581, 652),
    (895, 1011), (902, 940), (908, 972), (975, 983), (1012, 952), (1017, 1010), (1216, 1231),
    (4295, 11559), (4301, 11565), (7838, 223), (8025, 8017), (8027, 8019), (8029, 8021),
    (8031, 8023), (8124, 8115), (8140, 8131), (8172, 8165), (8188, 8179), (8486, 969), (8490, 107),
    (8491, 229), (8498, 8526), (11362, 619), (11363, 7549), (11364, 637), (11373, 593),
    (11374, 625), (11375, 592), (11376, 594), (42877, 7545), (42893, 613), (42922, 614),
    (42923, 604), (42924, 609), (42925, 620), (42926, 618), (42928, 670), (42929, 647),
    (42930, 669), (42931, 43859), (42948, 42900), (42949, 642), (42950, 7566)]

/-- The code point of the lower-case form of a character that has one. -/
def lowerPoint? (n : Nat) : Option Nat :=
  (lowerRuns.findSome? fun (lo, hi, first) =>
    if lo ≤ n && n ≤ hi then some (first + (n - lo)) else none) <|>
  (lowerTurns.findSome? fun (lo, hi) =>
    if lo ≤ n && n ≤ hi && (n - lo) % 2 == 0 then some (n + 1) else none) <|>
  lowerForms.lookup n

/-- The lower-case form of a character; a character without one is its own. -/
def lowerChar (c : Char) : Char :=
  ((lowerPoint? c.toNat).map Char.ofNat).getD c

/-- The lower-case form of a text, character by character. -/
def lower (s : String) : String :=
  String.ofList (s.toList.map lowerChar)

/-! ## Comparison up to case -/

/-- Characters that fold to another character than their lower-case form does, with the
character they fold to: second lower-case forms such as the long s and the final sigma. -/
def secondForms : List (Char × Char) :=
  [('µ', 'μ'), ('ſ', 's'), ('\u0345', 'ι'), ('ς', 'σ'), ('ϐ', 'β'), ('ϑ', 'θ'), ('ϕ', 'φ'),
   ('ϖ', 'π'), ('ϰ', 'κ'), ('ϱ', 'ρ'), ('ϵ', 'ε'), ('\u1e9b', '\u1e61'), ('\u1fbe', 'ι'),
   ('\u1c80', 'в'), ('\u1c81', 'д'), ('\u1c82', 'о'), ('\u1c83', 'с'), ('\u1c84', 'т'),
   ('\u1c85', 'т'), ('\u1c86', 'ъ'), ('\u1c87', 'ѣ'), ('\u1c88', '\ua64b')]

/-- One representative for all characters that differ in case only.  The dotted capital I
differs from both forms of the letter i by more than case. -/
def foldChar (c : Char) : Char :=
  if c = '\u0130' then c else (secondForms.lookup (lowerChar c)).getD (lowerChar c)

/-- Two texts are the same up to case when their characters fold alike, one by one. -/
def sameFolded (s t : String) : Bool :=
  s.toList.map foldChar == t.toList.map foldChar

end RdfMapping.Text
