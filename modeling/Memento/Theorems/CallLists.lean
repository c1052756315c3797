import Mathlib.Data.List.Perm.Subperm
import Memento.Lib.KeyedList
import Memento.Theorems.Trim

/-! Call lists in key order in which every END has its BEGIN. An END comes right after its BEGIN, and the list holds at
    most two fragments for each call. -/

namespace Memento
open Text

def Paired (l : List CallFragment) : Prop := ∀ g ∈ l, g.type = .END → g.beginKey ∈ l.map CallFragment.key

instance : DecidablePred Paired := fun l => inferInstanceAs (Decidable (∀ g ∈ l, _))

theorem type_of_not_isCall {g : CallFragment} (h : g.isCall = false) : g.type = .END := by
  unfold CallFragment.isCall at h
  cases ht : g.type with
  | END => rfl
  | BEGIN | REJECTED => rw [ht] at h; cases h

theorem key_eq_of_beginKey_eq {g h : CallFragment} (hg : g.type = .END) (hh : h.type = .END)
    (heq : g.beginKey = h.beginKey) : g.key = h.key := by
  simp only [CallFragment.beginKey, Key.mk.injEq, and_true] at heq
  simp only [CallFragment.key, hg, hh, heq.1, heq.2]

theorem nodup_beginKeys {l : List CallFragment} (hs : KeyedList.Sorted CallFragment.key l) :
    ((l.filter fun g => !g.isCall).map CallFragment.beginKey).Nodup := by
  rw [List.Nodup, List.pairwise_map]
  refine (hs.filter _).imp_of_mem fun {g h} hg hh hlt heq => hlt.ne ?_
  have hg := type_of_not_isCall (by simpa using (List.mem_filter.mp hg).2)
  have hh := type_of_not_isCall (by simpa using (List.mem_filter.mp hh).2)
  exact key_eq_of_beginKey_eq hg hh heq

theorem Paired.beginKeys_subset {l : List CallFragment} (hp : Paired l) :
    (l.filter fun g => !g.isCall).map CallFragment.beginKey ⊆ (l.filter CallFragment.isCall).map CallFragment.key := by
  intro k hk
  obtain ⟨g, hg, rfl⟩ := List.mem_map.mp hk
  obtain ⟨hmem, hend⟩ := List.mem_filter.mp hg
  obtain ⟨b, hb, hkey⟩ := List.mem_map.mp (hp g hmem (type_of_not_isCall (by simpa using hend)))
  refine List.mem_map.mpr ⟨b, List.mem_filter.mpr ⟨hb, ?_⟩, hkey⟩
  have htype : b.type = .BEGIN := congrArg Key.type hkey
  rw [CallFragment.isCall, htype]
  rfl

/-- A list in which every END has its BEGIN holds at most two fragments for each call. -/
theorem length_le_of_paired {l : List CallFragment} (hs : KeyedList.Sorted CallFragment.key l) (hp : Paired l) :
    l.length ≤ 2 * countCalls l := by
  have hends := (List.subperm_of_subset (nodup_beginKeys hs) hp.beginKeys_subset).length_le
  have hsplit := List.length_eq_length_filter_add (l := l) CallFragment.isCall
  rw [List.length_map, List.length_map] at hends
  rw [countCalls, List.countP_eq_length_filter]
  omega

theorem Paired.insert {l : List CallFragment} {f : CallFragment} (hp : Paired l)
    (hf : f.type = .END → f.beginKey ∈ l.map CallFragment.key) : Paired (KeyedList.insert CallFragment.key f l) := by
  intro g hg hend
  refine KeyedList.key_mem_insert ?_
  rcases KeyedList.mem_insert.mp hg with rfl | ⟨hg, -⟩
  · exact hf hend
  · exact hp g hg hend

theorem Paired.drop {l : List CallFragment} {n : ℕ} (hp : Paired l)
    (hcut : ∀ g ∈ l.drop n, g.type = .END → g.beginKey ∉ (l.take n).map CallFragment.key) : Paired (l.drop n) := by
  intro g hg hend
  have hmem := hp g (List.mem_of_mem_drop hg) hend
  rw [← List.take_append_drop n l, List.map_append, List.mem_append] at hmem
  exact hmem.resolve_left (hcut g hg hend)

theorem isCall_head {g : CallFragment} {l : List CallFragment} (hs : KeyedList.Sorted CallFragment.key (g :: l))
    (hp : Paired (g :: l)) : g.isCall = true := by
  by_contra hcall
  have hend : g.type = .END := type_of_not_isCall (Bool.eq_false_iff.mpr hcall)
  obtain ⟨b, hb, hkey⟩ := List.mem_map.mp (hp g (.head _) hend)
  have hlt : b.key < g.key := hkey ▸ CallFragment.beginKey_lt hend
  rcases List.mem_cons.mp hb with rfl | hb
  · exact lt_irrefl _ hlt
  · exact lt_asymm hlt ((List.pairwise_cons.mp hs).1 b hb)

end Memento
