/-! # Lower case

The simple lower-case mapping of Unicode 17.0, which takes one character to one character. It can change
the number of bytes of a text: a dotted capital I becomes a plain i.
-/
namespace ProtoWasm.Text

/-- The first character and the length of each run in which a capital letter and its small letter take turns. -/
def pairedRuns : List (Nat × Nat) :=
  [(256, 48), (306, 6), (313, 16), (330, 46), (377, 6), (386, 4), (391, 2), (395, 2), (401, 2), (408, 2), (416, 6),
   (423, 2), (428, 2), (431, 2), (435, 4), (440, 2), (444, 2), (453, 2), (456, 2), (459, 18), (478, 18), (498, 4),
   (504, 40), (546, 18), (571, 2), (577, 2), (582, 10), (880, 4), (886, 2), (984, 24), (1015, 2), (1018, 2), (1120, 34),
   (1162, 54), (1217, 14), (1232, 96), (7305, 2), (7680, 150), (7840, 96), (8579, 2), (11360, 2), (11367, 6),
   (11378, 2), (11381, 2), (11392, 100), (11499, 4), (11506, 2), (42560, 46), (42624, 28), (42786, 14), (42802, 62),
   (42873, 4), (42878, 10), (42891, 2), (42896, 4), (42902, 20), (42932, 16), (42951, 4), (42956, 16), (42997, 2)]

/-- The first character and the length of each other run of capital letters, and how far it is to their small
letters. -/
def capitalRuns : List (Nat × Nat × Int) :=
  [(65, 26, 32), (192, 23, 32), (216, 7, 32), (304, 1, -199), (376, 1, -121), (385, 1, 210), (390, 1, 206),
   (393, 2, 205), (398, 1, 79), (399, 1, 202), (400, 1, 203), (403, 1, 205), (404, 1, 207), (406, 1, 211),
   (407, 1, 209), (412, 1, 211), (413, 1, 213), (415, 1, 214), (422, 1, 218), (425, 1, 218), (430, 1, 218),
   (433, 2, 217), (439, 1, 219), (452, 1, 2), (455, 1, 2), (458, 1, 2), (497, 1, 2), (502, 1, -97), (503, 1, -56),
   (544, 1, -130), (570, 1, 10795), (573, 1, -163), (574, 1, 10792), (579, 1, -195), (580, 1, 69), (581, 1, 71),
   (895, 1, 116), (902, 1, 38), (904, 3, 37), (908, 1, 64), (910, 2, 63), (913, 17, 32), (931, 9, 32), (975, 1, 8),
   (1012, 1, -60), (1017, 1, -7), (1021, 3, -130), (1024, 16, 80), (1040, 32, 32), (1216, 1, 15), (1329, 38, 48),
   (4256, 38, 7264), (4295, 1, 7264), (4301, 1, 7264), (5024, 80, 38864), (5104, 6, 8), (7312, 43, -3008),
   (7357, 3, -3008), (7838, 1, -7615), (7944, 8, -8), (7960, 6, -8), (7976, 8, -8), (7992, 8, -8), (8008, 6, -8),
   (8025, 1, -8), (8027, 1, -8), (8029, 1, -8), (8031, 1, -8), (8040, 8, -8), (8072, 8, -8), (8088, 8, -8),
   (8104, 8, -8), (8120, 2, -8), (8122, 2, -74), (8124, 1, -9), (8136, 4, -86), (8140, 1, -9), (8152, 2, -8),
   (8154, 2, -100), (8168, 2, -8), (8170, 2, -112), (8172, 1, -7), (8184, 2, -128), (8186, 2, -126), (8188, 1, -9),
   (8486, 1, -7517), (8490, 1, -8383), (8491, 1, -8262), (8498, 1, 28), (8544, 16, 16), (9398, 26, 26), (11264, 48, 48),
   (11362, 1, -10743), (11363, 1, -3814), (11364, 1, -10727), (11373, 1, -10780), (11374, 1, -10749),
   (11375, 1, -10783), (11376, 1, -10782), (11390, 2, -10815), (42877, 1, -35332), (42893, 1, -42280),
   (42922, 1, -42308), (42923, 1, -42319), (42924, 1, -42315), (42925, 1, -42305), (42926, 1, -42308),
   (42928, 1, -42258), (42929, 1, -42282), (42930, 1, -42261), (42931, 1, 928), (42948, 1, -48), (42949, 1, -42307),
   (42950, 1, -35384), (42955, 1, -42343), (42972, 1, -42561), (65313, 26, 32), (66560, 40, 40), (66736, 36, 40),
   (66928, 11, 39), (66940, 15, 39), (66956, 7, 39), (66964, 2, 39), (68736, 51, 64), (68944, 22, 32), (71840, 32, 32),
   (93760, 32, 32), (93856, 25, 27), (125184, 34, 34)]

def isWithin (n first length : Nat) : Bool := first ≤ n && n < first + length

def lowerChar (c : Char) : Char :=
  let n := c.toNat
  if pairedRuns.any fun (first, length) => isWithin n first length && (n - first) % 2 == 0 then
    Char.ofNat (n + 1)
  else
    match capitalRuns.find? fun (first, length, _) => isWithin n first length with
    | some (_, _, offset) => Char.ofNat (n + offset).toNat
    | none => c

def lowercase (s : String) : String := s.map lowerChar

end ProtoWasm.Text
