/-
# Painted text

Words of a report stand out by terminal attributes: a sequence before the word turns the
attributes on, and one after it turns all attributes off again.
-/

namespace Moore.Text

/-- How a word stands out. -/
inductive Paint where
  | bold
  | dimmed
  | red
  | green
  | yellow
  | cyan
  | boldCyan
  deriving DecidableEq, Repr

/-- The numbers of the attributes. -/
def Paint.numbers : Paint → String
  | bold => "1"
  | dimmed => "2"
  | red => "31"
  | green => "32"
  | yellow => "33"
  | cyan => "36"
  | boldCyan => "1;36"

/-- The sequence that turns attributes on. -/
def Paint.start (p : Paint) : List Char :=
  ['\x1b', '['] ++ p.numbers.toList ++ ['m']

/-- The text with `start` after every sequence that turns all attributes off. -/
def resume (start : List Char) : List Char → List Char
  | '\x1b' :: '[' :: '0' :: 'm' :: cs => ['\x1b', '[', '0', 'm'] ++ start ++ resume start cs
  | c :: cs => c :: resume start cs
  | [] => []

/-- The text with attributes, if it is painted at all. -/
def paint (colors : Bool) (p : Paint) (s : String) : String :=
  if colors then
    String.ofList (p.start ++ resume p.start s.toList ++ ['\x1b', '[', '0', 'm'])
  else s

end Moore.Text
