import Mathlib.Data.List.Perm.Basic

/-!
# Objects with reference counts

A heap has objects and a count for each. `Holds h refs` says that `refs` are all the references there are, wherever they
are kept: an object is there if, and only if, something refers to it, and its count is how often. Taking a reference
adds one to the list, dropping one takes it off, and the object goes with the last.
-/

namespace KernelSched.RefCount

open Function List

variable {κ : Type} [DecidableEq κ]

structure Heap (κ : Type) where
  live : List κ
  count : κ → Nat

namespace Heap

def alloc (a : κ) (h : Heap κ) : Heap κ := ⟨a :: h.live, update h.count a 1⟩

def get (c : κ) (h : Heap κ) : Heap κ := { h with count := update h.count c (h.count c + 1) }

/-- Drop a reference, and the object with the last one. -/
def put (c : κ) (h : Heap κ) : Heap κ :=
  if h.count c = 1 then { h with live := h.live.erase c }
  else { h with count := update h.count c (h.count c - 1) }

theorem alloc_count (a : κ) (h : Heap κ) : (h.alloc a).count = update h.count a 1 := rfl

theorem get_count (c : κ) (h : Heap κ) : (h.get c).count = update h.count c (h.count c + 1) := rfl

variable {h : Heap κ}

theorem put_last {c : κ} (hc : h.count c = 1) : h.put c = { h with live := h.live.erase c } := if_pos hc

theorem put_live {c : κ} (hc : h.count c ≠ 1) : (h.put c).live = h.live := by rw [put, if_neg hc]

theorem put_count {c : κ} (hc : h.count c ≠ 1) :
    (h.put c).count = update h.count c (h.count c - 1) := by rw [put, if_neg hc]

end Heap

/-- `refs` are the references to the objects of the heap. -/
structure Holds (h : Heap κ) (refs : List κ) : Prop where
  nodup : h.live.Nodup
  mem : ∀ c, c ∈ h.live ↔ c ∈ refs
  count : ∀ c ∈ h.live, h.count c = refs.count c

namespace Holds

variable {h : Heap κ} {refs refs' : List κ} {a c : κ}

theorem empty (count : κ → Nat) : Holds ⟨[], count⟩ [] :=
  ⟨nodup_nil, fun _ => Iff.rfl, fun _ hc => (not_mem_nil hc).elim⟩

theorem perm (hh : Holds h refs) (hp : refs.Perm refs') : Holds h refs' :=
  ⟨hh.nodup, fun c => (hh.mem c).trans hp.mem_iff, fun c hc => (hh.count c hc).trans (hp.count_eq c)⟩

theorem alloc (hh : Holds h refs) (ha : a ∉ h.live) : Holds (h.alloc a) (a :: refs) := by
  have hzero : refs.count a = 0 := count_eq_zero.2 fun hmem => ha ((hh.mem a).2 hmem)
  refine ⟨nodup_cons.2 ⟨ha, hh.nodup⟩, fun c => ?_, fun c hc => ?_⟩
  · rw [Heap.alloc, mem_cons, mem_cons, hh.mem]
  · by_cases hca : c = a
    · rw [hca, Heap.alloc_count, update_self, count_cons_self, hzero]
    · have hmem : c ∈ h.live := (mem_cons.1 hc).resolve_left hca
      rw [Heap.alloc_count, update_of_ne hca, hh.count c hmem, count_cons_of_ne (Ne.symm hca)]

theorem get (hh : Holds h refs) (hc : c ∈ refs) : Holds (h.get c) (c :: refs) := by
  refine ⟨hh.nodup, fun d => ?_, fun d hd => ?_⟩
  · rw [Heap.get, hh.mem, mem_cons]
    exact ⟨.inr, fun hd => hd.elim (fun heq => heq ▸ hc) id⟩
  · by_cases hdc : d = c
    · subst hdc
      rw [Heap.get_count, update_self, count_cons_self, hh.count d hd]
    · rw [Heap.get_count, update_of_ne hdc, count_cons_of_ne (Ne.symm hdc), hh.count d hd]

theorem last_iff (hh : Holds h (c :: refs)) : h.count c = 1 ↔ c ∉ refs := by
  rw [hh.count c ((hh.mem c).2 mem_cons_self), count_cons_self, Nat.add_eq_right, count_eq_zero]

theorem put (hh : Holds h (c :: refs)) : Holds (h.put c) refs := by
  by_cases hlast : h.count c = 1
  · have hout := hh.last_iff.1 hlast
    rw [Heap.put_last hlast]
    refine ⟨hh.nodup.erase c, fun d => ?_, fun d hd => ?_⟩
    · rw [hh.nodup.mem_erase_iff, hh.mem, mem_cons]
      exact ⟨fun ⟨hne, hd⟩ => hd.resolve_left hne, fun hd => ⟨fun heq => hout (heq ▸ hd), .inr hd⟩⟩
    · obtain ⟨hne, hd⟩ := hh.nodup.mem_erase_iff.1 hd
      rw [hh.count d hd, count_cons_of_ne (Ne.symm hne)]
  · have hin : c ∈ refs := by
      by_contra hout
      exact hlast (hh.last_iff.2 hout)
    have hlive := Heap.put_live hlast
    refine ⟨hlive ▸ hh.nodup, fun d => ?_, fun d hd => ?_⟩
    · rw [hlive, hh.mem, mem_cons]
      exact ⟨fun hd => hd.elim (fun heq => heq ▸ hin) id, .inr⟩
    · rw [hlive] at hd
      rw [Heap.put_count hlast]
      by_cases hdc : d = c
      · subst hdc
        rw [update_self, hh.count d hd, count_cons_self, Nat.add_sub_cancel]
      · rw [update_of_ne hdc, hh.count d hd, count_cons_of_ne (Ne.symm hdc)]

theorem length_put (hh : Holds h (c :: refs)) :
    (h.put c).live.length + (if h.count c = 1 then 1 else 0) = h.live.length := by
  have hmem : c ∈ h.live := (hh.mem c).2 mem_cons_self
  by_cases hlast : h.count c = 1
  · have hpos := length_pos_of_mem hmem
    have hlen : (h.live.erase c).length = h.live.length - 1 := length_erase_of_mem hmem
    rw [Heap.put_last hlast, if_pos hlast]
    show (h.live.erase c).length + 1 = h.live.length
    omega
  · rw [Heap.put_live hlast, if_neg hlast, Nat.add_zero]

end Holds

end KernelSched.RefCount
