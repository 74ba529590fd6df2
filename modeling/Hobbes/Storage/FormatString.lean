import Hobbes.Regex.Syntax

/-!
# Format strings of log statements

A statement's format string is checked while the program is compiled, against the number of its arguments, and read
when its records are shown. The check is a recursion over the characters, the reader a machine with five states.
-/

namespace Hobbes

namespace FormatString

open Regex (ch)

def isDigit (c : UInt8) : Bool := ch '0' ≤ c && c ≤ ch '9'

/-- In the C locale. -/
def isalnum (c : UInt8) : Bool := isDigit c || (ch 'a' ≤ c && c ≤ ch 'z') || (ch 'A' ≤ c && c ≤ ch 'Z')

def isNameChar (c : UInt8) : Bool := isalnum c || c = ch '_'

/-! ### The check -/

/-- Only asked for `i` up to `e`. -/
def readInt (fmt : List UInt8) (i e n : ℕ) : ℕ :=
  if i < e then readInt fmt (i + 1) e ((n * 10 + (fmt.getD i 0 - ch '0').toNat) % 2 ^ 64) else n
termination_by e - i

def maxV (x y : ℕ) : ℕ := if x < y then y else x

def maxVarRefS (fmt : List UInt8) (i s vri maxvr : ℕ) : ℕ :=
  if h : fmt.length ≤ i then maxvr
  else if s = 0 then
    if fmt[i] = ch '\\' then maxVarRefS fmt (i + 2) 0 0 maxvr
    else if fmt[i] = ch '$' then maxVarRefS fmt (i + 1) 1 (i + 1) maxvr
    else maxVarRefS fmt (i + 1) 0 0 maxvr
  else if isDigit fmt[i] then maxVarRefS fmt (i + 1) 1 vri maxvr
  -- the character that ends a reference is not looked at again
  else maxVarRefS fmt (i + 1) 0 0 (maxV maxvr ((1 + readInt fmt vri i 0) % 2 ^ 64))
termination_by fmt.length - i

/-- A string literal is an array of its characters and a 0. -/
def maxVarRef (str : List UInt8) : ℕ := maxVarRefS (str ++ [0]) 0 0 0 0

/-! ### The reader -/

inductive State where
  | text
  | unescape
  | variable
  | shortName
  | expression
  deriving DecidableEq

variable {T : Type*}

/-- The loop of `foldWithFormat`, on what is left of the string. -/
def foldFrom (constF expF : T → List UInt8 → T) (x : State) (bc : ℕ) (b : List UInt8) (r : T) : List UInt8 → T
  | [] =>
    match x with
    | .text | .unescape | .variable => constF r b
    | .shortName => expF r b
    | .expression => r
  | c :: cs =>
    match x with
    | .text =>
      if c = ch '\\' then foldFrom constF expF .unescape bc b r cs
      else if c = ch '$' then foldFrom constF expF .variable bc [] (constF r b) cs
      else foldFrom constF expF .text bc (b ++ [c]) r cs
    | .unescape => foldFrom constF expF .text bc (b ++ [c]) r cs
    | .variable =>
      if c ≠ ch '\x7b' then foldFrom constF expF .shortName bc (b ++ [c]) r cs
      else foldFrom constF expF .expression 1 b r cs
    | .shortName =>
      if isNameChar c then foldFrom constF expF .shortName bc (b ++ [c]) r cs
      else foldFrom constF expF .text bc [] (expF r b) (c :: cs)
    | .expression =>
      if c = ch '\x7d' then
        if bc = 1 then foldFrom constF expF .text bc [] (expF r b) cs
        else foldFrom constF expF .expression (bc - 1) (b ++ [c]) r cs
      else if c = ch '\x7b' then foldFrom constF expF .expression (bc + 1) (b ++ [c]) r cs
      else foldFrom constF expF .expression bc (b ++ [c]) r cs
termination_by cs => 2 * cs.length + if x = .shortName then 1 else 0
decreasing_by all_goals grind

def foldWithFormat (str : List UInt8) (s : T) (constF expF : T → List UInt8 → T) : T :=
  foldFrom constF expF .text 0 [] s str

/-- What the reader passes to its two functions, in order. -/
inductive Part where
  | const (text : List UInt8)
  | exp (expr : List UInt8)
  deriving DecidableEq

def parts (str : List UInt8) : List Part :=
  foldWithFormat str [] (fun r b => r ++ [.const b]) (fun r b => r ++ [.exp b])

def Part.apply (constF expF : T → List UInt8 → T) (r : T) : Part → T
  | const b => constF r b
  | exp b => expF r b

/-- The number that a text of decimal digits stands for. -/
def decimal (ds : List UInt8) : ℕ := ds.foldl (fun n c => n * 10 + (c - ch '0').toNat) 0

def IsNumber (e : List UInt8) (k : ℕ) : Prop := e ≠ [] ∧ (∀ c ∈ e, isDigit c) ∧ decimal e = k

/-- Formatting a record takes its argument `k`. -/
def RefersTo (str : List UInt8) (k : ℕ) : Prop := ∃ e, Part.exp e ∈ parts str ∧ IsNumber e k

/-! ### Where the two look -/

/-- Cutting off one piece after the other leads from one text to the other. -/
inductive Cuts (next : List UInt8 → List UInt8) : List UInt8 → List UInt8 → Prop where
  | here (s : List UInt8) : Cuts next s s
  | later {c : UInt8} {s t : List UInt8} (h : Cuts next (next (c :: s)) t) : Cuts next (c :: s) t

/-- The pieces of the check: an escape, a reference with one more character, or one character. -/
def checkNext : List UInt8 → List UInt8
  | [] => []
  | c :: cs =>
    if c = ch '\\' then cs.tail
    else if c = ch '$' then (cs.dropWhile isDigit).tail
    else cs

/-- An expression up to its closing brace, and what is behind it. -/
def bracedExpr (bc : ℕ) (b : List UInt8) : List UInt8 → Option (List UInt8 × List UInt8)
  | [] => none
  | c :: cs =>
    if c = ch '\x7d' then if bc = 1 then some (b, cs) else bracedExpr (bc - 1) (b ++ [c]) cs
    else bracedExpr (if c = ch '\x7b' then bc + 1 else bc) (b ++ [c]) cs

/-- The expression that a dollar is in front of, and what is behind it. -/
def refAt : List UInt8 → Option (List UInt8 × List UInt8)
  | [] => none
  | c :: cs =>
    if c = ch '\x7b' then bracedExpr 1 [] cs else some (c :: cs.takeWhile isNameChar, cs.dropWhile isNameChar)

/-- The pieces of the reader: an escape, a reference, or one character. -/
def formatNext : List UInt8 → List UInt8
  | [] => []
  | c :: cs =>
    if c = ch '\\' then cs.tail
    else if c = ch '$' then ((refAt cs).map Prod.snd).getD []
    else cs

/-- The largest number of arguments for which the check turns this reference down, and one more. -/
def counted (cs : List UInt8) : ℕ := (1 + decimal (cs.takeWhile isDigit)) % 2 ^ 64

/-- A reference to `k` that the check does not count as one: it is in braces, its dollar is not at the head of a piece
of the check, or its number overflows. -/
def Missed (str : List UInt8) (k : ℕ) : Prop :=
  ∃ cs e rest, Cuts formatNext str (ch '$' :: cs) ∧ refAt cs = some (e, rest) ∧ IsNumber e k ∧
    (cs.head? = some (ch '\x7b') ∨ ¬ Cuts checkNext str (ch '$' :: cs) ∨ 2 ^ 64 ≤ k + 1)

end FormatString

end Hobbes
