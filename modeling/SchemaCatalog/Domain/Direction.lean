import SchemaCatalog.Domain.Mark

/-!
# The direction of labels

A domain in which some character is written from right to left must not change its look when it is
written among others. So each of its labels keeps one direction: it begins with a letter, which
sets the direction, has no letter of the other direction and ends, marks aside, in a letter or a
digit of its own. A label from right to left may hold European digits or Arabic ones but not both.
Domains without such characters are free of the rule.
-/

namespace SchemaCatalog.Domain

/-- How a character takes part in the direction of a text. -/
inductive Direction where
  | left
  | right
  | european
  | arabic
  /-- A mark, which follows the character before it. -/
  | mark
  /-- A sign that goes with what is around it. -/
  | neutral
  deriving DecidableEq, Repr

/-- The letters written from right to left. -/
def rightTable : List Table.Range := Table.ranges "
  5BE-5F4 608 60B 60D 61B-64A 66D-6D5 6E5-6E6 6EE-6EF 6FA-7F5 7FA-8C9 FBB2-FBC2 FE73 10800-1091B
  10920-10B35 10B40-10D23 10D40-10D4F 10D6F-10D8F 10E80-10ED0 10F00-10FF6 1E800-1ED3D
"

/-- The digits that go with Arabic letters. -/
def arabicTable : List Table.Range := Table.ranges "660-669 66B-66C 10D30-10D39 10E60-10E7E"

/-- The digits that go with European letters. -/
def europeanTable : List Table.Range := Table.ranges "30-39 6F0-6F9 102E1-102FB"

/-- The signs without a direction. -/
def neutralTable : List Table.Range := Table.ranges "
  0-2F 3A-60 7B-D7 F7 2B9-2BA 2C2-2CF 2D2-2ED 2EF-2FF 375 3F6 58A-58F 606-607 609-60A 60C 60E-60F
  66A 6DE 6E9 7F6-7F9 9F2-9F3 9FB AF1 BF3-BFA C78-C7E E3F F3A-F3D 1390-1399 1400 169B-169C 17DB
  17F0-180A 1940-1945 19DE-19FF 200C-214D 218A-2335 237B-2394 2396-26AB 26AD-27FF 2900-2BFF
  2CE5-2CEA 2CF9-2CFF 2E00-3004 3008-3020 3030 3037 303D-303F 30A0 30FB 31C0-31E5 4DC0-4DFF
  A490-A4C6 A60D-A60F A673-A67F A700-A721 A788 A828-A82B A838-A839 A874-A877 AB6A-AB6B FBC3-FE46
  10101 10140-1018C 10190-101A0 1091F 10B39-10B3F 10D6E 10ED1-10ED8 11052-11065 11660-1166C
  11FD5-11FF1 16FE2 1CC00-1CEF0 1D1E9-1D245 1D300-1D356 1E2FF 1EEF0-1F12F 1F16D-1F16F 1F1AD
  1F260-1FBFA
"

/-- The nonspacing marks that count as letters. -/
def letterMarkTable : List Table.Range := Table.ranges "CBF CC6 11A07-11A08 11C3F"

/-- The spacing marks that count as marks here. -/
def directionMarkTable : List Table.Range := Table.ranges "1171E"

/-- The direction of a character. -/
def direction (c : Char) : Direction :=
  if isAscii c then
    if c.isAlpha then .left else if c.isDigit then .european else .neutral
  else if isNonspacing c then if Table.covers letterMarkTable c then .left else .mark
  else if Table.covers directionMarkTable c then .mark
  else if Table.covers rightTable c then .right
  else if Table.covers arabicTable c then .arabic
  else if Table.covers europeanTable c then .european
  else if Table.covers neutralTable c then .neutral
  else .left

/-- Whether a character makes a domain keep the rule. -/
def isRightToLeft (c : Char) : Bool :=
  !isAscii c && (direction c == .right || direction c == .arabic)

/-- Whether a label keeps one direction. -/
def keepsDirection (label : List Char) : Bool :=
  let ds := label.map direction
  let last := ds.reverse.dropWhile (· == .mark) |>.head?
  match ds with
  | [] => true
  | .left :: _ =>
    ds.all (fun d => d != .right && d != .arabic) &&
      last.all fun d => d == .left || d == .european
  | .right :: _ =>
    ds.all (fun d => d != .left) && !(ds.contains .european && ds.contains .arabic) &&
      last.all fun d => d == .right || d == .european || d == .arabic
  | _ => false

end SchemaCatalog.Domain
