import Concordance.Text.Numeral
import Concordance.Text.Split

/-!
# Styles

Names of text styles: attributes, a colour, a background after `on` and a target after `link`. Names that stand
for the same style have one normal form, in which the attributes come first and in a fixed order.
-/

namespace Concordance.Text

def lower (s : String) : String := String.ofList (s.toList.map Char.toLower)

structure Style where
  attributes : List (String × Bool) := []
  color : Option String := none
  background : Option String := none
  link : Option String := none
deriving DecidableEq, Repr, Inhabited

namespace Style

def spellings : List (String × List String) :=
  [("bold", ["bold", "b"]), ("dim", ["dim", "d"]), ("italic", ["italic", "i"]), ("underline", ["underline", "u"]),
    ("blink", ["blink"]), ("blink2", ["blink2"]), ("reverse", ["reverse", "r"]), ("conceal", ["conceal", "c"]),
    ("strike", ["strike", "s"]), ("underline2", ["underline2", "uu"]), ("frame", ["frame"]),
    ("encircle", ["encircle"]), ("overline", ["overline", "o"])]

def attribute? (word : String) : Option String :=
  (spellings.find? fun a => a.2.contains word).map Prod.fst

def colorNames : List String :=
  ["black", "red", "green", "yellow", "blue", "magenta", "cyan", "white", "bright_black", "bright_red",
    "bright_green", "bright_yellow", "bright_blue", "bright_magenta", "bright_cyan", "bright_white",
    "navy_blue", "dark_blue", "blue3", "blue1", "dark_green", "deep_sky_blue4", "dodger_blue3", "dodger_blue2",
    "green4", "spring_green4", "turquoise4", "deep_sky_blue3", "dodger_blue1", "green3", "spring_green3",
    "dark_cyan", "light_sea_green", "deep_sky_blue2", "deep_sky_blue1", "spring_green2", "cyan3",
    "dark_turquoise", "turquoise2", "green1", "spring_green1", "medium_spring_green", "cyan2", "cyan1",
    "dark_red", "deep_pink4", "purple4", "purple3", "blue_violet", "orange4", "medium_purple4", "slate_blue3",
    "royal_blue1", "chartreuse4", "dark_sea_green4", "pale_turquoise4", "steel_blue", "steel_blue3",
    "cornflower_blue", "chartreuse3", "cadet_blue", "sky_blue3", "steel_blue1", "pale_green3", "sea_green3",
    "aquamarine3", "medium_turquoise", "chartreuse2", "sea_green2", "sea_green1", "aquamarine1",
    "dark_slate_gray2", "dark_magenta", "dark_violet", "purple", "light_pink4", "plum4", "medium_purple3",
    "slate_blue1", "yellow4", "wheat4", "light_slate_grey", "light_slate_gray", "medium_purple",
    "light_slate_blue", "dark_olive_green3", "dark_sea_green", "light_sky_blue3", "sky_blue2",
    "dark_sea_green3", "dark_slate_gray3", "sky_blue1", "chartreuse1", "light_green", "pale_green1",
    "dark_slate_gray1", "red3", "medium_violet_red", "magenta3", "dark_orange3", "indian_red", "hot_pink3",
    "medium_orchid3", "medium_orchid", "medium_purple2", "dark_goldenrod", "light_salmon3", "rosy_brown",
    "medium_purple1", "gold3", "dark_khaki", "navajo_white3", "light_steel_blue3", "light_steel_blue",
    "yellow3", "dark_sea_green2", "light_cyan3", "light_sky_blue1", "green_yellow", "dark_olive_green2",
    "dark_sea_green1", "pale_turquoise1", "deep_pink3", "magenta2", "hot_pink2", "orchid", "medium_orchid1",
    "orange3", "light_pink3", "pink3", "plum3", "violet", "light_goldenrod3", "tan", "misty_rose3", "thistle3",
    "plum2", "khaki3", "light_goldenrod2", "light_yellow3", "light_steel_blue1", "yellow2", "dark_olive_green1",
    "honeydew2", "light_cyan1", "red1", "deep_pink2", "deep_pink1", "magenta1", "orange_red1", "indian_red1",
    "hot_pink", "dark_orange", "salmon1", "light_coral", "pale_violet_red1", "orchid2", "orchid1", "orange1",
    "sandy_brown", "light_salmon1", "light_pink1", "pink1", "plum1", "gold1", "navajo_white1", "misty_rose1",
    "thistle1", "yellow1", "light_goldenrod1", "khaki1", "wheat1", "cornsilk1"]

def greys : List Nat :=
  [0, 3, 7, 11, 15, 19, 23, 27, 30, 35, 37, 39, 42, 46, 50, 53, 54, 58, 62, 63, 66, 69, 70, 74, 78, 82, 84, 85,
    89, 93, 100]

def isComponent (cs : List Char) : Bool :=
  match Numeral.digits? 10 cs with
  | some n => cs.all Char.isDigit && n ≤ 255
  | none => false

def argument? (opening cs : List Char) : Option (List Char) :=
  if opening.isPrefixOf cs && cs.getLast? == some ')' then some (cs.drop opening.length).dropLast else none

/-- Whether a word in lower case is a colour: a name, six digits of base sixteen, or numbers. -/
def isColor (word : String) : Bool :=
  let cs := word.toList
  let isGrey := greys.any fun n => word == s!"grey{n}" || word == s!"gray{n}"
  let isHex := match cs with
    | '#' :: digits => digits.length == 6 && digits.all fun c => (Numeral.digit? 16 c).isSome
    | _ => false
  let isIndex := match argument? "color(".toList cs with
    | some digits => digits.length ≤ 3 && isComponent digits
    | none => false
  let isMixed := match argument? "rgb(".toList cs with
    | some parts => (split ',' parts).length == 3 && (split ',' parts).all isComponent
    | none => false
  word == "default" || colorNames.contains word || isGrey || isHex || isIndex || isMixed

def withAttribute (s : Style) (name : String) (value : Bool) : Style :=
  { s with attributes := (name, value) :: s.attributes.filter fun a => a.1 != name }

def ofWords? : List String → Style → Option Style
  | [], s => some s
  | word :: rest, s =>
    let word := lower word
    if word = "on" then match rest with
      | color :: rest => if isColor (lower color) then ofWords? rest { s with background := some (lower color) } else none
      | [] => none
    else if word = "not" then match rest with
      | name :: rest => match attribute? name with
        | some a => ofWords? rest (s.withAttribute a false)
        | none => none
      | [] => none
    else if word = "link" then match rest with
      | target :: rest => ofWords? rest { s with link := some target }
      | [] => none
    else match attribute? word with
      | some a => ofWords? rest (s.withAttribute a true)
      | none => if isColor word then ofWords? rest { s with color := some word } else none

def toWords (s : Style) : List String :=
  let attributes := spellings.flatMap fun a => match s.attributes.find? fun b => b.1 == a.1 with
    | some (name, true) => [name]
    | some (name, false) => ["not", name]
    | none => []
  attributes ++ s.color.toList ++ (s.background.toList.flatMap fun c => ["on", c])
    ++ (s.link.toList.flatMap fun l => ["link", l])

/-- The normal form of a style's name; a name that is no style stands for itself, in lower case. -/
def normalize (name : String) : String :=
  if trim name = "none" then "none"
  else match ofWords? ((words name.toList).map String.ofList) {} with
    | some s => if s.toWords.isEmpty then "none" else " ".intercalate s.toWords
    | none => lower (trim name)

end Style

end Concordance.Text
