import Memento.Lib.Text
import Mathlib.Algebra.BigOperators.Group.List.Basic

/-! The documents that `rapidxml::print` writes: elements with a value or with children, no attributes.
    Values are escaped, children are indented by tabs, and every element ends its line. -/

namespace Xml
open Text

inductive Node where
  | element (name value : Bytes) (children : List Node)

namespace Node

abbrev leaf (name value : Bytes) : Node := .element name value []

abbrev parent (name : Bytes) (children : List Node) : Node := .element name [] children

end Node

/-- What `copy_and_expand_chars` writes for a byte of a value. -/
def entity (b : UInt8) : Bytes :=
  if b = 60 then ascii "&lt;"
  else if b = 62 then ascii "&gt;"
  else if b = 39 then ascii "&apos;"
  else if b = 34 then ascii "&quot;"
  else if b = 38 then ascii "&amp;"
  else [b]

def escape (s : Bytes) : Bytes := s.flatMap entity

def openTag (name : Bytes) : Bytes := 60 :: (name ++ [62])
def closeTag (name : Bytes) : Bytes := 60 :: 47 :: (name ++ [62])
def emptyTag (name : Bytes) : Bytes := 60 :: (name ++ [47, 62])
def tabs (indent : ℕ) : Bytes := List.replicate indent 9

mutual

/-- `print_node` of an element. A value beside children is not printed. -/
def printNode (indent : ℕ) : Node → Bytes
  | .element name value [] =>
    tabs indent ++ (if value = [] then emptyTag name else openTag name ++ escape value ++ closeTag name) ++ [10]
  | .element name _ (c :: cs) =>
    tabs indent ++ openTag name ++ 10 :: printChildren (indent + 1) (c :: cs) ++ tabs indent ++ closeTag name ++ [10]

def printChildren (indent : ℕ) : List Node → Bytes
  | [] => []
  | c :: cs => printNode indent c ++ printChildren indent cs

end

/-- `rapidxml::print` of a document: its elements, and a line break after the document node. -/
def print (doc : List Node) : Bytes := printChildren 0 doc ++ [10]

theorem printChildren_append (indent : ℕ) (a b : List Node) :
    printChildren indent (a ++ b) = printChildren indent a ++ printChildren indent b := by
  induction a with
  | nil => rfl
  | cons c cs ih => simp only [List.cons_append, printChildren, ih, List.append_assoc]

/-! ### Lengths -/

/-- How many bytes a byte of a value takes in the text. -/
def entityLength (b : UInt8) : ℕ :=
  if b = 60 ∨ b = 62 then 4 else if b = 39 ∨ b = 34 then 6 else if b = 38 then 5 else 1

def escapedLength (s : Bytes) : ℕ := (s.map entityLength).sum

def leafLength (indent : ℕ) (name value : Bytes) : ℕ :=
  if value = [] then indent + name.length + 4 else indent + 2 * name.length + escapedLength value + 6

theorem length_entity (b : UInt8) : (entity b).length = entityLength b := by
  unfold entity entityLength
  split_ifs <;> simp_all <;> rfl

theorem length_escape (s : Bytes) : (escape s).length = escapedLength s := by
  induction s with
  | nil => rfl
  | cons b s ih =>
    simp only [escape, List.flatMap_cons, List.length_append, length_entity] at ih ⊢
    simp only [escapedLength, List.map_cons, List.sum_cons] at ih ⊢
    rw [ih]

theorem length_printNode_leaf (indent : ℕ) (name value : Bytes) :
    (printNode indent (.leaf name value)).length = leafLength indent name value := by
  unfold leafLength printNode
  split
  · simp [tabs, emptyTag]
    omega
  · simp [tabs, openTag, closeTag, length_escape]
    omega

theorem length_printNode_parent (indent : ℕ) (name : Bytes) {children : List Node} (h : children ≠ []) :
    (printNode indent (.parent name children)).length =
      2 * indent + 2 * name.length + (printChildren (indent + 1) children).length + 7 := by
  cases children with
  | nil => exact absurd rfl h
  | cons c cs =>
    simp [printNode, tabs, openTag, closeTag]
    omega

/-! ### Text without NUL -/

mutual

/-- No name or value holds a NUL. -/
def Node.Clean : Node → Prop
  | .element name value children => 0 ∉ name ∧ 0 ∉ value ∧ CleanAll children

def CleanAll : List Node → Prop
  | [] => True
  | c :: cs => c.Clean ∧ CleanAll cs

end

theorem cleanAll_append {a b : List Node} : CleanAll (a ++ b) ↔ CleanAll a ∧ CleanAll b := by
  induction a with
  | nil => simp [CleanAll]
  | cons c cs ih => simp only [List.cons_append, CleanAll, ih, and_assoc]

theorem zero_notMem_entity {b : UInt8} (h : b ≠ 0) : (0 : UInt8) ∉ entity b := by
  unfold entity
  split_ifs
  · decide
  · decide
  · decide
  · decide
  · decide
  · simpa using h.symm

theorem zero_notMem_escape {s : Bytes} (h : (0 : UInt8) ∉ s) : (0 : UInt8) ∉ escape s := by
  intro h0
  obtain ⟨b, hb, hb0⟩ := List.mem_flatMap.mp h0
  exact zero_notMem_entity (fun hz => h (hz ▸ hb)) hb0

theorem zero_notMem_tabs (indent : ℕ) : (0 : UInt8) ∉ tabs indent := by
  intro h
  exact absurd (List.eq_of_mem_replicate h) (by decide)

mutual

theorem zero_notMem_printNode (indent : ℕ) : ∀ n : Node, n.Clean → (0 : UInt8) ∉ printNode indent n
  | .element name value [], h => by
    have hn : (0 : UInt8) ∉ name := h.1
    have hv := zero_notMem_escape h.2.1
    unfold printNode
    split <;> simp [hn, hv, emptyTag, openTag, closeTag, zero_notMem_tabs]
  | .element name value (c :: cs), h => by
    have hn : (0 : UInt8) ∉ name := h.1
    have hc := zero_notMem_printChildren (indent + 1) (c :: cs) h.2.2
    simp [printNode, hn, hc, openTag, closeTag, zero_notMem_tabs]

theorem zero_notMem_printChildren (indent : ℕ) : ∀ cs : List Node, CleanAll cs → (0 : UInt8) ∉ printChildren indent cs
  | [], _ => by simp [printChildren]
  | c :: cs, h => by
    have h1 := zero_notMem_printNode indent c h.1
    have h2 := zero_notMem_printChildren indent cs h.2
    simp [printChildren, h1, h2]

end

theorem zero_notMem_print {doc : List Node} (h : CleanAll doc) : (0 : UInt8) ∉ print doc := by
  simp [print, zero_notMem_printChildren 0 doc h]

example : print [.parent (ascii "from") [.leaf (ascii "URI") (ascii "sip:a@b"), .leaf (ascii "name") (ascii "Bob's")]] =
    ascii "<from>\n\t<URI>sip:a@b</URI>\n\t<name>Bob&apos;s</name>\n</from>\n\n" := by decide

end Xml
