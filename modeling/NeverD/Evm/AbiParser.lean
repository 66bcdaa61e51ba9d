import Mathlib.Algebra.BigOperators.Group.List.Basic
import NeverD.Evm.AbiTypes

namespace NeverD.Evm.Abi

def maxABITypeNestingDepth : Nat := 64
def maxABITypeNodes : Nat := 4096
def maxABIArrayDimensions : Nat := 256

/-- The text from the cursor on, and what is used of the budgets. -/
structure Parser where
  rest : List Char
  typeNodes : Nat
  arrayDimensions : Nat

namespace Parser

def consume (expected : Char) (p : Parser) : Option Parser :=
  match p.rest with
  | [] => none
  | c :: rest => if c ≠ expected then none else some { p with rest := rest }

def chargeNode (p : Parser) : Option Parser :=
  if maxABITypeNodes ≤ p.typeNodes then none else some { p with typeNodes := p.typeNodes + 1 }

def chargeDimension (p : Parser) : Option Parser :=
  if maxABIArrayDimensions ≤ p.arrayDimensions then none
    else some { p with arrayDimensions := p.arrayDimensions + 1 }

def slice (start stop : Parser) : List Char :=
  start.rest.take (start.rest.length - stop.rest.length)

def parseElementary (p : Parser) : Option Parser :=
  let name := p.rest.takeWhile Char.isAlphanum
  if name = [] ∨ !isCanonicalElementaryABIType name then none
  else some { p with rest := p.rest.dropWhile Char.isAlphanum }

/-- The array suffixes. The budget ends the loop before the fuel does. -/
def parseDimensions : Nat → Parser → Option Parser
  | 0, _ => none
  | fuel + 1, p =>
    match p.consume '[' with
    | none => some p
    | some p => do
      let p ← p.chargeDimension
      let dimension := p.rest.takeWhile Char.isDigit
      let p := { p with rest := p.rest.dropWhile Char.isDigit }
      if dimension ≠ [] ∧ !isCanonicalUnsignedDecimal dimension then none
      else do
        let p ← p.consume ']'
        parseDimensions fuel p

/-- The members up to a closing character. The budget ends the loop before the fuel does. -/
def parseMembers (type : Parser → Option Parser) (close : Char) :
    Nat → Parser → Option (List (List Char) × Parser)
  | 0, _ => none
  | fuel + 1, p => do
    let q ← type p
    match q.consume close with
    | some r => some ([slice p q], r)
    | none => do
      let r ← q.consume ','
      let (members, s) ← parseMembers type close fuel r
      some (slice p q :: members, s)

def parseDelimitedList (type : Parser → Option Parser) (close : Char) (p : Parser) :
    Option (List (List Char) × Parser) :=
  match p.consume close with
  | some q => some ([], q)
  | none => parseMembers type close (maxABITypeNodes + 1) p

def parseBase (p : Parser) (tuple : Parser → Option Parser) : Option Parser :=
  match p.consume '(' with
  | some p => tuple p
  | none => p.parseElementary

def parseTypeWith (tuple : Parser → Option Parser) (p : Parser) : Option Parser := do
  let p ← p.chargeNode
  let p ← p.parseBase tuple
  p.parseDimensions (maxABIArrayDimensions + 1)

/-- A type below which tuples may nest a number of levels. -/
def parseType : Nat → Parser → Option Parser
  | 0 => parseTypeWith fun _ => none
  | levels + 1 => parseTypeWith fun p => (parseDelimitedList (parseType levels) ')' p).map Prod.snd

def parseListMembers (type : Parser → Option Parser) : Nat → Parser → Option (List (List Char))
  | 0, _ => none
  | fuel + 1, p => do
    let q ← type p
    if q.rest = [] then some [slice p q]
    else do
      let r ← q.consume ','
      if r.rest = [] then none
      else do
        let members ← parseListMembers type fuel r
        some (slice p q :: members)

def parseList (text : List Char) : Option (List (List Char)) :=
  if text = [] then some []
  else parseListMembers (parseType maxABITypeNestingDepth) (maxABITypeNodes + 1) ⟨text, 0, 0⟩

def parseParenthesizedList (text : List Char) : Option (List (List Char)) := do
  let p ← consume '(' ⟨text, 0, 0⟩
  let (members, q) ← parseDelimitedList (parseType maxABITypeNestingDepth) ')' p
  if q.rest = [] then some members else none

end Parser

def isCanonicalSignatureName (name : List Char) : Bool :=
  match name with
  | [] => false
  | c :: rest => (c.isAlpha || c = '_' || c = '$') && rest.all fun c =>
      c.isAlphanum || c = '_' || c = '$'

def parseCanonicalABISignature (signature : List Char) : Option (List (List Char)) :=
  let name := signature.takeWhile (· ≠ '(')
  let list := signature.dropWhile (· ≠ '(')
  if list = [] ∨ !isCanonicalSignatureName name then none else Parser.parseParenthesizedList list

def splitTypeList (list : List Char) : List (List Char) := (Parser.parseList list).getD []

def joinComma : List (List Char) → List Char
  | [] => []
  | [text] => text
  | text :: rest => text ++ ',' :: joinComma rest

structure Member where
  text : List Char
  nodes : Nat
  dimensions : Nat

def nodesOf (members : List Member) : Nat := (members.map Member.nodes).sum
def dimensionsOf (members : List Member) : Nat := (members.map Member.dimensions).sum
def textsOf (members : List Member) : List (List Char) := members.map Member.text

inductive IsType : Nat → Member → Prop
  | elementary {levels : Nat} (name : List Char) (h : Elementary name) : IsType levels ⟨name, 1, 0⟩
  | tuple {levels : Nat} (members : List Member) (h : ∀ m ∈ members, IsType levels m) :
      IsType (levels + 1) ⟨'(' :: (joinComma (textsOf members) ++ [')']), 1 + nodesOf members,
        dimensionsOf members⟩
  | array {levels : Nat} {m : Member} (dimension : List Char) (h : IsType levels m)
      (hdimension : dimension = [] ∨ ∃ n, dimension = decimal n) :
      IsType levels ⟨m.text ++ '[' :: (dimension ++ [']']), m.nodes, m.dimensions + 1⟩

def IsTypeList (texts : List (List Char)) : Prop :=
  ∃ members, texts = textsOf members ∧ (∀ m ∈ members, IsType 64 m) ∧ nodesOf members ≤ 4096 ∧
    dimensionsOf members ≤ 256

inductive IsName : List Char → Prop
  | mk (c : Char) (rest : List Char) (hc : c.isAlpha ∨ c = '_' ∨ c = '$')
      (hrest : ∀ d ∈ rest, d.isAlphanum ∨ d = '_' ∨ d = '$') : IsName (c :: rest)

end NeverD.Evm.Abi
