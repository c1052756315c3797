import Memento.Lib.Text
import Mathlib.Data.List.Lex
import Mathlib.Data.Prod.Lex

/-! The records of the call list store (`CallListStore::CallFragment`) and the order it keeps them in. -/

namespace Memento
open Text

/-- `CallFragment::Type`. -/
inductive FragmentType where
  | BEGIN | END | REJECTED
  deriving DecidableEq, Repr

structure Key where
  timestamp : Bytes
  id : Bytes
  type : FragmentType
  deriving DecidableEq, Repr

structure CallFragment where
  timestamp : Bytes
  id : Bytes
  type : FragmentType
  contents : Bytes
  deriving DecidableEq, Repr

def CallFragment.key (f : CallFragment) : Key := ⟨f.timestamp, f.id, f.type⟩

/-- A BEGIN or REJECTED fragment: there is one for each call. -/
def FragmentType.isCall : FragmentType → Bool
  | .BEGIN | .REJECTED => true
  | .END => false

def CallFragment.isCall (f : CallFragment) : Bool := f.type.isCall

/-- The result codes of `CassandraStore` that the repository names. -/
inductive ResultCode where
  | OK | CONNECTION_ERROR | UNKNOWN_ERROR
  deriving DecidableEq, Repr

/-- `CallListRequest`: what `write_call_list_entry` is given, and what a worker takes from the queue. -/
structure CallListRequest where
  impu : Bytes
  timestamp : Bytes
  id : Bytes
  type : FragmentType
  contents : Bytes
  deriving DecidableEq, Repr

/-- The fragment that `process_work` makes of a request. -/
def CallListRequest.callFragment (clr : CallListRequest) : CallFragment :=
  ⟨clr.timestamp, clr.id, clr.type, clr.contents⟩

/-! ### Key order: by timestamp, then id, then type -/

def FragmentType.rank : FragmentType → ℕ
  | .BEGIN => 0
  | .END => 1
  | .REJECTED => 2

def Key.sortKey (k : Key) : List ℕ ×ₗ List ℕ ×ₗ ℕ :=
  toLex (k.timestamp.map UInt8.toNat, toLex (k.id.map UInt8.toNat, k.type.rank))

theorem Key.sortKey_injective : Function.Injective Key.sortKey := by
  rintro ⟨t, i, y⟩ ⟨t', i', y'⟩ h
  have hbytes : Function.Injective (List.map UInt8.toNat) :=
    List.map_injective_iff.mpr fun _ _ => UInt8.toNat_inj.mp
  simp only [Key.sortKey, EmbeddingLike.apply_eq_iff_eq, Prod.mk.injEq] at h
  obtain ⟨ht, hi, hy⟩ := h
  cases hbytes ht
  cases hbytes hi
  cases y <;> cases y' <;> first | rfl | cases hy

instance : LinearOrder Key := LinearOrder.lift' Key.sortKey Key.sortKey_injective

/-- The key of the BEGIN of an END. -/
def CallFragment.beginKey (f : CallFragment) : Key := ⟨f.timestamp, f.id, .BEGIN⟩

theorem CallFragment.beginKey_lt {f : CallFragment} (h : f.type = .END) : f.beginKey < f.key := by
  change Key.sortKey _ < Key.sortKey _
  simp only [Key.sortKey, beginKey, key, h]
  rw [Prod.Lex.toLex_lt_toLex]
  refine Or.inr ⟨rfl, ?_⟩
  rw [Prod.Lex.toLex_lt_toLex]
  exact Or.inr ⟨rfl, (by decide : FragmentType.rank .BEGIN < FragmentType.rank .END)⟩

/-- No key is between those of a BEGIN and its END. -/
theorem CallFragment.key_le_of_beginKey_lt {f : CallFragment} (h : f.type = .END) {k : Key} (hlt : f.beginKey < k) :
    f.key ≤ k := by
  change Key.sortKey _ < Key.sortKey _ at hlt
  change Key.sortKey _ ≤ Key.sortKey _
  simp only [Key.sortKey, beginKey, key, h, Prod.Lex.toLex_lt_toLex, Prod.Lex.toLex_le_toLex] at hlt ⊢
  refine hlt.imp_right (And.imp_right (Or.imp_right (And.imp_right fun hrank => ?_)))
  exact Nat.succ_le_of_lt hrank

example : (⟨ascii "20020530093010", ascii "a", .BEGIN⟩ : Key) < ⟨ascii "20020530093010", ascii "a", .END⟩ ∧
    (⟨ascii "20020530093010", ascii "a", .END⟩ : Key) < ⟨ascii "20020530093011", ascii "b", .REJECTED⟩ := by decide

end Memento
