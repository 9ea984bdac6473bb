import ScriptC.Text.Letter

/-!
Which characters are shown as they are in quoted text.
-/

namespace ScriptC.Text

set_option maxRecDepth 4000

def symbolRanges : List Nat := [
  33, 9, 1, 2, 1, 7, 1, 1, 1, 2, 1, 5, 23, 1, 31, 1, 458, 4, 12, 14, 5, 7, 1, 1, 1, 17, 117, 1, 8,
  1, 5, 2, 112, 1, 139, 1, 5, 2, 208, 6, 41, 2, 2, 3, 46, 1, 1, 1, 2, 1, 2, 1, 44, 2, 17, 10, 11, 1,
  1, 3, 74, 4, 102, 1, 9, 1, 10, 1, 19, 2, 1, 14, 232, 4, 4, 2, 48, 15, 31, 1, 41, 1, 219, 2, 10, 1,
  129, 10, 1, 1, 120, 1, 121, 2, 126, 1, 1, 6, 120, 11, 124, 9, 4, 1, 202, 1, 8, 7, 17, 10, 122, 1,
  74, 1, 15, 1, 10, 2, 165, 23, 2, 6, 10, 11, 1, 1, 1, 1, 1, 4, 71, 1, 56, 8, 1, 6, 1, 13, 111, 6,
  78, 2, 91, 1, 612, 9, 9, 11, 19, 10, 102, 1, 620, 2, 44, 2, 78, 3, 71, 2, 157, 3, 1, 4, 20, 10, 6,
  11, 309, 1, 3, 2, 152, 34, 30, 2, 128, 7, 1, 6, 16, 1, 155, 17, 9, 11, 125, 4, 59, 5, 62, 2, 64,
  8, 11, 1, 745, 1, 1, 3, 11, 3, 13, 3, 13, 3, 13, 2, 17, 24, 8, 15, 2, 19, 1, 10, 17, 1, 3, 11, 1,
  15, 17, 33, 28, 4, 1, 3, 27, 2, 1, 4, 1, 2, 10, 1, 1, 2, 6, 6, 1, 1, 1, 1, 1, 1, 16, 2, 4, 5, 5,
  4, 1, 17, 41, 3, 4, 663, 25, 11, 21, 1812, 2, 32, 1, 105, 229, 6, 14, 7, 112, 1, 143, 94, 34, 26,
  1, 89, 12, 214, 26, 12, 5, 4, 3, 25, 15, 1, 5, 2, 5, 3, 96, 1, 90, 1, 148, 16, 32, 36, 28, 31, 1,
  480, 6592, 64, 22160, 55, 55, 2, 269, 3, 96, 4, 10, 1, 115, 6, 8, 23, 9, 2, 103, 2, 157, 4, 4, 10,
  58, 4, 86, 2, 40, 3, 1, 1, 49, 2, 47, 1, 97, 13, 16, 2, 124, 4, 23, 3, 100, 2, 16, 2, 105, 1, 14,
  2, 127, 1, 20285, 1, 136, 17, 379, 18, 127, 1, 44, 4, 16, 10, 22, 3, 2, 24, 3, 3, 1, 19, 1, 4,
  149, 15, 10, 7, 26, 4, 1, 1, 26, 11, 122, 7, 1, 7, 13, 2, 258, 3, 4, 45, 3, 9, 53, 26, 1, 13, 3,
  1, 47, 45, 228, 27, 36, 4, 123, 1, 48, 1, 414, 1, 743, 9, 23, 9, 39, 9, 75, 5, 22, 6, 3, 1, 31, 1,
  124, 2, 2, 16, 2, 46, 64, 9, 7, 9, 36, 3, 29, 3, 40, 1, 34, 12, 66, 7, 24, 8, 24, 8, 25, 4, 12, 7,
  330, 6, 352, 31, 46, 1, 111, 10, 42, 9, 44, 4, 59, 7, 123, 7, 4, 20, 85, 2, 1, 4, 126, 4, 48, 2,
  79, 4, 4, 1, 13, 1, 1, 3, 1, 20, 67, 6, 107, 1, 417, 5, 10, 2, 1, 1, 104, 1, 250, 23, 105, 3, 28,
  13, 76, 1, 128, 6, 251, 1, 174, 9, 81, 3, 155, 1, 92, 8, 83, 3, 1, 5, 93, 10, 311, 5, 20, 19, 3,
  2, 645, 2, 74, 13, 112, 50, 13, 1, 1136, 5, 2940, 2, 14971, 2, 133, 1, 65, 9, 4, 2, 21, 7, 798,
  27, 327, 1, 19641, 1, 2, 1, 4784, 116, 60, 246, 10, 39, 2, 60, 5, 3, 22, 2, 7, 30, 4, 61, 21, 66,
  3, 1, 122, 20, 12, 20, 12, 87, 9, 25, 840, 1, 25, 1, 31, 1, 25, 1, 31, 1, 25, 1, 31, 1, 25, 1, 31,
  1, 25, 1, 60, 512, 55, 4, 50, 8, 1, 14, 1, 7, 1731, 1, 431, 1, 1479, 9, 142, 2, 785, 68, 76, 61,
  434, 2, 270, 44, 4, 100, 12, 15, 2, 15, 1, 15, 1, 37, 10, 174, 56, 29, 13, 44, 4, 9, 7, 2, 14, 6,
  154, 984, 4, 17, 3, 13, 3, 119, 4, 95, 6, 12, 4, 1, 15, 12, 4, 56, 8, 10, 6, 40, 8, 30, 2, 2, 78,
  340, 12, 14, 2, 13, 3, 9, 7, 46, 1, 7, 8, 14, 4, 9, 7, 9, 7, 147, 1, 55]

/--
Whether the character leaves a mark on paper. Of the blanks only the space does, and of the
characters of names all but the two joiners.
-/
def isPrintable (c : Char) : Bool :=
  if c.toNat < 0x80 then 0x20 ≤ c.toNat && c.toNat < 0x7F
  else inRanges symbolRanges c || (isNamePart c && c != '\u200c' && c != '\u200d')

end ScriptC.Text
