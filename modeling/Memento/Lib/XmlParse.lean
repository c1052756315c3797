import Memento.Lib.Xml

/-! Reading a printed document back. The text is read byte by byte, with the elements that are open on a stack; what
    is between two tags is the value of an element that has no children. -/

namespace Xml
open Text

/-! ### Values -/

/-- The byte that an entity stands for, by its name. -/
def entityByte (name : Bytes) : Option UInt8 :=
  if name = ascii "lt" then some 60
  else if name = ascii "gt" then some 62
  else if name = ascii "apos" then some 39
  else if name = ascii "quot" then some 34
  else if name = ascii "amp" then some 38
  else none

/-- Replaces the entities; `name` is what follows the last '&' that is not closed. -/
def unescapeFrom : Option Bytes → Bytes → Option Bytes
  | none, [] => some []
  | some _, [] => none
  | none, b :: s => if b = 38 then unescapeFrom (some []) s else (unescapeFrom none s).map (b :: ·)
  | some name, b :: s =>
    if b = 59 then (entityByte name).bind fun c => (unescapeFrom none s).map (c :: ·)
    else unescapeFrom (some (name ++ [b])) s

def unescape (s : Bytes) : Option Bytes := unescapeFrom none s

theorem unescapeFrom_entity (b : UInt8) (s : Bytes) :
    unescapeFrom none (entity b ++ s) = (unescapeFrom none s).map (b :: ·) := by
  unfold entity
  split_ifs with hlt hgt hapos hquot hamp
  · rw [hlt]; rfl
  · rw [hgt]; rfl
  · rw [hapos]; rfl
  · rw [hquot]; rfl
  · rw [hamp]; rfl
  · rw [List.singleton_append, unescapeFrom, if_neg hamp]

theorem unescape_escape (s : Bytes) : unescape (escape s) = some s := by
  induction s with
  | nil => rfl
  | cons b s ih => rw [escape, List.flatMap_cons, unescape, unescapeFrom_entity, ← escape, ← unescape, ih, Option.map_some]

theorem notMem_escape (s : Bytes) : (60 : UInt8) ∉ escape s := by
  intro h
  obtain ⟨b, -, hb⟩ := List.mem_flatMap.mp h
  revert hb
  unfold entity
  split_ifs with hlt
  · decide
  · decide
  · decide
  · decide
  · decide
  · simpa using Ne.symm hlt

/-! ### Elements -/

/-- An element that is open: its name, and the children read so far. -/
structure Frame where
  name : Bytes
  children : List Node

def Frame.add (f : Frame) (nodes : List Node) : Frame := { f with children := f.children ++ nodes }

/-- Where the reader is: the innermost open element, those around it, the text since the last tag, and the tag that is
    being read. -/
structure Reader where
  frame : Frame
  stack : List Frame
  text : Bytes
  tag : Option Bytes

def Reader.between (frame : Frame) (stack : List Frame) (text : Bytes) : Reader := ⟨frame, stack, text, none⟩

/-- The element that ends: its text is its value if it has no children. -/
def Frame.close (f : Frame) (text : Bytes) : Option Node :=
  if f.children = [] then (unescape text).map (Node.leaf f.name) else some (.parent f.name f.children)

/-- The end of a tag: of an end tag, an empty element, or the tag that opens an element. -/
def Reader.endTag (r : Reader) (tag : Bytes) : Option Reader :=
  if tag.head? = some 47 then
    match r.stack with
    | [] => none
    | around :: stack =>
      if tag.tail = r.frame.name then (r.frame.close r.text).map fun node => .between (around.add [node]) stack []
      else none
  else if tag.getLast? = some 47 then some (.between (r.frame.add [.leaf tag.dropLast []]) r.stack [])
  else some (.between ⟨tag, []⟩ (r.frame :: r.stack) [])

def Reader.step (r : Reader) (b : UInt8) : Option Reader :=
  match r.tag with
  | none => some (if b = 60 then { r with tag := some [] } else { r with text := r.text ++ [b] })
  | some tag => if b = 62 then r.endTag tag else some { r with tag := some (tag ++ [b]) }

def Reader.read (r : Reader) (s : Bytes) : Option Reader := s.foldlM Reader.step r

/-- The elements of a printed document. -/
def parse (s : Bytes) : Option (List Node) :=
  (Reader.read (.between ⟨[], []⟩ [] []) s).bind fun r =>
    if r.stack = [] ∧ r.tag = none then some r.frame.children else none

section
variable {frame : Frame} {stack : List Frame} {text : Bytes}

theorem Reader.read_append {r r' : Reader} {s : Bytes} (h : r.read s = some r') (t : Bytes) : r.read (s ++ t) = r'.read t := by
  have happend : r.read (s ++ t) = (r.read s).bind (·.read t) := List.foldlM_append
  rw [happend, h, Option.bind_some]

theorem Reader.read_cons (r : Reader) (b : UInt8) (s : Bytes) : r.read (b :: s) = (r.step b).bind (·.read s) := rfl

theorem Reader.read_text {s : Bytes} (h : (60 : UInt8) ∉ s) :
    (Reader.between frame stack text).read s = some (.between frame stack (text ++ s)) := by
  induction s generalizing text with
  | nil => rw [List.append_nil]; rfl
  | cons b s ih =>
    have hb : b ≠ 60 := fun hb => h (hb ▸ List.mem_cons_self)
    have hstep : (Reader.between frame stack text).step b = some (.between frame stack (text ++ [b])) :=
      congrArg some (if_neg hb)
    rw [Reader.read_cons, hstep, Option.bind_some, ih (List.not_mem_of_not_mem_cons h), List.append_assoc, List.singleton_append]

/-- A tag is read up to its '>'. -/
theorem Reader.read_tagFrom {acc s : Bytes} (h : (62 : UInt8) ∉ s) :
    (Reader.mk frame stack text (some acc)).read (s ++ [62]) = (Reader.between frame stack text).endTag (acc ++ s) := by
  induction s generalizing acc with
  | nil =>
    have hstep : (Reader.mk frame stack text (some acc)).step 62 = (Reader.between frame stack text).endTag acc := rfl
    rw [List.nil_append, Reader.read_cons, hstep, List.append_nil]
    cases (Reader.between frame stack text).endTag acc <;> rfl
  | cons b s ih =>
    have hb : b ≠ 62 := fun hb => h (hb ▸ List.mem_cons_self)
    have hstep : (Reader.mk frame stack text (some acc)).step b = some ⟨frame, stack, text, some (acc ++ [b])⟩ := if_neg hb
    rw [List.cons_append, Reader.read_cons, hstep, Option.bind_some, ih (List.not_mem_of_not_mem_cons h), List.append_assoc,
      List.singleton_append]

theorem Reader.read_tag {s : Bytes} (h : (62 : UInt8) ∉ s) :
    (Reader.between frame stack text).read (60 :: (s ++ [62])) = (Reader.between frame stack text).endTag s := by
  have hstep : (Reader.between frame stack text).step 60 = some ⟨frame, stack, text, some []⟩ := rfl
  rw [Reader.read_cons, hstep, Option.bind_some, Reader.read_tagFrom h, List.nil_append]

/-- A name that can stand in a tag. -/
def IsName (name : Bytes) : Prop := name ≠ [] ∧ (47 : UInt8) ∉ name ∧ (62 : UInt8) ∉ name

instance : DecidablePred IsName := fun _ => inferInstanceAs (Decidable (_ ∧ _))

variable {name : Bytes}

theorem Reader.read_openTag (h : IsName name) : (Reader.between frame stack text).read (openTag name) =
    some (.between ⟨name, []⟩ (frame :: stack) []) := by
  obtain ⟨-, hslash, hgt⟩ := h
  have hhead : name.head? ≠ some 47 := fun hh => hslash (List.mem_of_mem_head? hh)
  have hlast : name.getLast? ≠ some 47 := fun hl => hslash (List.mem_of_mem_getLast? hl)
  rw [openTag, Reader.read_tag hgt, Reader.endTag, if_neg hhead, if_neg hlast]
  rfl

theorem Reader.read_emptyTag (h : IsName name) : (Reader.between frame stack text).read (emptyTag name) =
    some (.between (frame.add [.leaf name []]) stack []) := by
  obtain ⟨hne, hslash, hgt⟩ := h
  have hhead : (name ++ [47]).head? ≠ some 47 := by
    rw [List.head?_append_of_ne_nil _ hne]
    exact fun hh => hslash (List.mem_of_mem_head? hh)
  have hmem : (62 : UInt8) ∉ name ++ [47] := by simp [hgt]
  have htag : emptyTag name = 60 :: ((name ++ [47]) ++ [62]) := by simp [emptyTag]
  rw [htag, Reader.read_tag hmem, Reader.endTag, if_neg hhead, if_pos List.getLast?_concat, List.dropLast_concat]
  rfl

theorem Reader.read_closeTag {around : Frame} {node : Node} (h : IsName name) (hframe : frame.name = name)
    (hclose : frame.close text = some node) :
    (Reader.between frame (around :: stack) text).read (closeTag name) = some (.between (around.add [node]) stack []) := by
  obtain ⟨-, -, hgt⟩ := h
  have hmem : (62 : UInt8) ∉ 47 :: name := by simp [hgt]
  rw [closeTag, ← List.cons_append, Reader.read_tag hmem, Reader.endTag]
  simp [Reader.between, hframe, hclose]

end

/-! ### Documents -/

mutual

/-- The names can stand in tags, and an element with children has no value of its own. -/
def Node.WellFormed : Node → Prop
  | .element name value children => IsName name ∧ (children ≠ [] → value = []) ∧ WellFormedAll children

def WellFormedAll : List Node → Prop
  | [] => True
  | c :: cs => c.WellFormed ∧ WellFormedAll cs

end

theorem Frame.add_add (f : Frame) (a b : List Node) : (f.add a).add b = f.add (a ++ b) := by
  rw [Frame.add, Frame.add, Frame.add, List.append_assoc]

theorem notMem_tabs (indent : ℕ) : (60 : UInt8) ∉ tabs indent := fun h =>
  absurd (List.eq_of_mem_replicate h) (by decide)

mutual

/-- A printed element is read as a child of the innermost open element. -/
theorem Reader.read_printNode (indent : ℕ) (frame : Frame) (stack : List Frame) (text : Bytes) :
    ∀ n : Node, n.WellFormed → (Reader.between frame stack text).read (printNode indent n) =
      some (.between (frame.add [n]) stack [10])
  | .element name value [], h => by
    obtain ⟨hname, -, -⟩ := h
    rw [printNode]
    simp only [List.append_assoc]
    rw [Reader.read_append (Reader.read_text (notMem_tabs indent))]
    split
    · rename_i hv
      rw [Reader.read_append (Reader.read_emptyTag hname), Reader.read_text (by simp), hv]
      rfl
    · have hclose : Frame.close ⟨name, []⟩ (escape value) = some (.leaf name value) := by
        rw [Frame.close, if_pos rfl, unescape_escape, Option.map_some]
      rw [List.append_assoc, List.append_assoc, Reader.read_append (Reader.read_openTag hname),
        Reader.read_append (Reader.read_text (notMem_escape value)), List.nil_append,
        Reader.read_append (Reader.read_closeTag hname rfl hclose), Reader.read_text (by simp)]
      rfl
  | .element name value (c :: cs), h => by
    obtain ⟨hname, hvalue, hchildren⟩ := h
    obtain rfl := hvalue (List.cons_ne_nil _ _)
    obtain ⟨text', hread⟩ := Reader.read_printChildren (indent + 1) ⟨name, []⟩ (frame :: stack) [10] (c :: cs) hchildren
    have hclose : (Frame.add ⟨name, []⟩ (c :: cs)).close (text' ++ tabs indent) = some (.parent name (c :: cs)) :=
      if_neg (List.cons_ne_nil _ _)
    have hbreak (s : Bytes) : 10 :: s = [10] ++ s := rfl
    rw [printNode, hbreak]
    simp only [List.append_assoc]
    rw [Reader.read_append (Reader.read_text (notMem_tabs indent)), Reader.read_append (Reader.read_openTag hname),
      Reader.read_append (Reader.read_text (by simp)), List.nil_append, Reader.read_append hread,
      Reader.read_append (Reader.read_text (notMem_tabs indent)),
      Reader.read_append (Reader.read_closeTag hname rfl hclose), Reader.read_text (by simp)]
    rfl

theorem Reader.read_printChildren (indent : ℕ) (frame : Frame) (stack : List Frame) (text : Bytes) :
    ∀ cs : List Node, WellFormedAll cs → ∃ text', (Reader.between frame stack text).read (printChildren indent cs) =
      some (.between (frame.add cs) stack text')
  | [], _ => ⟨text, by rw [Frame.add, List.append_nil]; rfl⟩
  | c :: cs, h => by
    obtain ⟨text', hrest⟩ := Reader.read_printChildren indent (frame.add [c]) stack [10] cs h.2
    refine ⟨text', ?_⟩
    rw [printChildren, Reader.read_append (Reader.read_printNode indent frame stack text c h.1), hrest, Frame.add_add,
      List.singleton_append]

end

/-- A printed document is read back. -/
theorem parse_print {doc : List Node} (h : WellFormedAll doc) : parse (print doc) = some doc := by
  obtain ⟨text, hread⟩ := Reader.read_printChildren 0 ⟨[], []⟩ [] [] doc h
  rw [parse, print, Reader.read_append hread, Reader.read_text (by simp), Option.bind_some, if_pos ⟨rfl, rfl⟩]
  rfl

end Xml
