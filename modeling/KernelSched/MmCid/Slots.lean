import KernelSched.Lib.Run
import KernelSched.Lib.Custody
import KernelSched.MmCid.Program

/-!
# Where the concurrency ids are

An id that is allocated is in one slot, or with one program that is about to store it or to give it back. This holds in
every interleaving. Besides, the invariant says which task a program is about, and what its slot may be.

- `Moves` is what a step can do to the slots and the mask, with what it knows then. All later results go by it.
- `Placed` and `SlotOk` say what the program of a CPU can rely on at each point: other threads may set the flag of its
  slot and unset it then, no more.
-/

namespace KernelSched.MmCid

open Custody Option State Clearer Steal
open Function (update update_of_ne update_self update_eq_self)

variable {n m : Nat}

/-! ## What a program has -/

/-- The id that a program has taken out of a slot or out of the mask. -/
def Get.hand : Get → Option Nat
  | .clear cid => some cid
  | .clearUse cid => some cid
  | .unlock cid => some cid
  | .write cid => some cid
  | _ => none

def PutLazy.hand : PutLazy → Option Nat
  | .clear cid => some cid
  | _ => none

def Put.hand : Put → Option Nat
  | .clear cid => some cid
  | _ => none

def Migrate.hand : Migrate n → Option Nat
  | .clear cid => some cid
  | .write cid => some cid
  | _ => none

def Pc.hand : Pc n → Option Nat
  | .putLazy _ p => p.hand
  | .get g => g.hand
  | .put p => p.hand
  | .migrate _ g => g.hand
  | _ => none

def Clearer.hand : Clearer n → Option Nat
  | .clear cid => some cid
  | _ => none

/-- The slot and id that a program is about to take, and how far it is. -/
def Pc.steal : Pc n → Option (Fin n × Nat × Steal)
  | .migrate _ (.steal src _ cid st) => some (src, cid, st)
  | _ => none

def Clearer.target : Clearer n → Option (Fin n × Nat × Steal)
  | .steal cpu cid st => some (cpu, cid, st)
  | _ => none

/-- The id that a program is about to give its task. -/
def Pc.claim : Pc n → Option Nat
  | .get (.record cid) => some cid
  | _ => none

inductive Place (n m : Nat)
  | slot (cpu : Fin n)
  | cpu (cpu : Fin n)
  | clearer (k : Fin m)

namespace State

def held (s : State n m) : Place n m → Option Nat
  | .slot cpu => (s.slot cpu).cid
  | .cpu cpu => (s.pc cpu).hand
  | .clearer k => (s.clearer k).hand

/-- The task that a CPU runs is active in the address space, and has the id or is about to get it. -/
def Claims (s : State n m) (cpu : Fin n) (cid : Nat) : Prop :=
  s.active (s.curr cpu) = true ∧ s.mm (s.curr cpu) = .ours ∧
    (s.mmCid (s.curr cpu) = some cid ∨ (s.pc cpu).claim = some cid)

end State

def Pc.Placed (s : State n m) (cpu : Fin n) : Pc n → Prop
  | .leave prev => s.mmCid (s.curr cpu) = none ∧ (s.active prev = false → s.mmCid prev = none)
  | .putLazy .. => s.mmCid (s.curr cpu) = none
  | .unsetPrev _ => s.mmCid (s.curr cpu) = none
  | .enter => s.mmCid (s.curr cpu) = none
  | .get _ => s.mmCid (s.curr cpu) = none ∧ s.active (s.curr cpu) = true ∧ s.mm (s.curr cpu) = .ours
  | .put _ => s.active (s.curr cpu) = false
  | _ => s.active (s.curr cpu) = false → s.mmCid (s.curr cpu) = none

/-- The slot of the CPU has to be unset, since an id is going to be stored there. -/
def Get.blank : Get → Bool
  | .read => false
  | .xchg _ => false
  | .record _ => false
  | _ => true

def Migrate.blank : Migrate n → Bool
  | .last _ blank => blank
  | .read _ blank _ => blank
  | .look _ blank _ _ => blank
  | .steal _ blank _ _ => blank
  | .write _ => true
  | _ => false

def Pc.SlotOk : Pc n → Slot → Prop
  | .get (.xchg cid), v => v = .lazy cid ∨ v = .unset
  | .get g, v => g.blank = true → v = .unset
  | .migrate _ g, v => g.blank = true → v = .unset
  | _, _ => True

theorem Pc.SlotOk.unset {pc : Pc n} {v : Slot} (h : pc.SlotOk v) : pc.SlotOk .unset := by
  unfold Pc.SlotOk at h ⊢
  split
  · exact .inr rfl
  · exact fun _ => rfl
  · exact fun _ => rfl
  · trivial

theorem Pc.SlotOk.lazy {pc : Pc n} {cid : Nat} (h : pc.SlotOk (.valid cid)) : pc.SlotOk (.lazy cid) := by
  unfold Pc.SlotOk at h ⊢
  split at h
  · rcases h with h | h <;> cases h
  · exact fun hblank => (nomatch h hblank)
  · exact fun hblank => (nomatch h hblank)
  · trivial

/-! ## What a step can do -/

def Effect.Quiet : Effect n → Prop
  | .store .. => False
  | .clearBit _ => False
  | .setBit _ => False
  | _ => True

/-- What a step does to the slots and the mask, for a program that has the slot of a CPU, is about to take an id out of a
slot, and has an id in hand before and after. -/
inductive Moves (s : State n m) (own : Option (Fin n)) (target : Option (Fin n × Nat × Steal)) :
    Option Nat → Option Nat → Effect n → Prop
  | quiet {h e} (he : e.Quiet) : Moves s own target h h e
  | lazy {h j c} (hj : target = some (j, c, .lazy)) (hv : s.slot j = .valid c) :
    Moves s own target h h (.store j (.lazy c))
  | won {j c} (hj : target = some (j, c, .unset)) (hv : s.slot j = .lazy c) :
    Moves s own target none (some c) (.store j .unset)
  | unset {j c} (hj : own = some j) (hv : (s.slot j).cid = some c) (hfree : ∀ d, ¬ s.Claims j d) :
    Moves s own target none (some c) (.store j .unset)
  | write {j c} (hj : own = some j) (hv : s.slot j = .unset) : Moves s own target (some c) none (.store j (.valid c))
  | clear {c} : Moves s own target (some c) none (.clearBit c)
  | set {c} (hc : s.mask c = false) : Moves s own target none (some c) (.setBit c)

variable {s s' : State n m} {i j : Fin n} {c d t : Nat} {own : Option (Fin n)} {target : Option (Fin n × Nat × Steal)}
  {a b : Option Nat} {e : Effect n} {pc pc' : Pc n} {many : Bool} {g' : Option (Migrate n)} {g : Migrate n}

theorem Steal.moves {st : Steal} {r : Result} (hnext : st.next s j c = (r, e)) :
    Moves s own (some (j, c, st)) none (if r matches .won then some c else none) e := by
  cases st <;> simp only [next] at hnext <;> split at hnext <;> next hv =>
    cases hnext
    first
    | exact .quiet trivial
    | exact .lazy rfl hv
    | exact .won rfl hv

theorem not_claims_of_none (hcid : s.mmCid (s.curr i) = none) (hclaim : (s.pc i).claim = none) : ¬ s.Claims i d := by
  rintro ⟨-, -, h | h⟩
  · exact (nomatch hcid.symm.trans h)
  · exact (nomatch hclaim.symm.trans h)

theorem Get.moves {g : Get} {g' : Option Get} (hfree : (Pc.get g : Pc n).claim = none → ∀ d, ¬ s.Claims i d)
    (hok : (Pc.get g : Pc n).SlotOk (s.slot i)) (hnext : g.next s i = some (g', e)) :
    Moves s (some i) none g.hand (g'.bind Get.hand) e := by
  cases g <;> simp only [Get.next] at hnext <;> repeat' split at hnext
  all_goals cases hnext
  all_goals
    first
    | exact .quiet trivial
    | exact .clear
    | exact .set (Bool.eq_false_iff.2 (by assumption))
    | exact .write rfl (hok rfl)
    | exact .unset rfl (by simp only [*]; rfl) (hfree rfl)

theorem PutLazy.moves {p : PutLazy} {p' : Option PutLazy} (hfree : ∀ d, ¬ s.Claims i d) (hnext : p.next s i = (p', e)) :
    Moves s (some i) none p.hand (p'.bind PutLazy.hand) e := by
  cases p <;> simp only [PutLazy.next] at hnext <;> repeat' split at hnext
  all_goals cases hnext
  all_goals
    first
    | exact .quiet trivial
    | exact .clear
    | exact .unset rfl (by simp only [*]; rfl) hfree

theorem Put.moves {p : Put} {p' : Option Put} (hfree : ∀ d, ¬ s.Claims i d) (hnext : p.next s i = (p', e)) :
    Moves s (some i) none p.hand (p'.bind Put.hand) e := by
  cases p <;> simp only [Put.next] at hnext <;> repeat' split at hnext
  all_goals cases hnext
  all_goals
    first
    | exact .quiet trivial
    | exact .clear
    | exact .unset rfl (by simp only [*]) hfree

theorem Migrate.moves (hok : (Pc.migrate t g).SlotOk (s.slot i))
    (hnext : g.next s i many t = (g', e)) : Moves s (some i) (Pc.migrate t g).steal g.hand (g'.bind Migrate.hand) e := by
  cases g <;> simp only [Migrate.next] at hnext <;> repeat' split at hnext
  all_goals cases hnext
  all_goals
    first
    | exact .quiet trivial
    | exact .clear
    | exact .write rfl (hok rfl)
    | exact moves (by assumption)

theorem Clearer.moves {k k' : Clearer n} (hstep : k.step s = some (k', e)) : Moves s none k.target k.hand k'.hand e := by
  cases k with
  | steal cpu c st =>
    rcases hnext : st.next s cpu c with ⟨r, e'⟩
    have hm : Moves s none (some (cpu, c, st)) none _ e' := Steal.moves hnext
    cases r <;> simp only [step, hnext] at hstep <;> cases hstep <;> exact hm
  | _ =>
    simp only [step] at hstep
    repeat' split at hstep
    all_goals cases hstep
    all_goals first | exact .quiet trivial | exact .clear

/-- The ids stay in custody with every step. -/
theorem Moves.kept (hm : Moves s own target a b e) (hk : Kept s.held s.mask) {p : Place n m} (hh : s.held p = a)
    (hslot : s'.slot = (s.apply e).slot) (hmask : s'.mask = (s.apply e).mask) (hp' : s'.held p = b)
    (hrest : ∀ q, q ≠ p → (∀ j, q ≠ .slot j) → s'.held q = s.held q) : Kept s'.held s'.mask := by
  have hother : ∀ q, q ≠ p → (∀ j, q = .slot j → ((s.apply e).slot j).cid = (s.slot j).cid) → s'.held q = s.held q := by
    intro q hq hsame
    cases q with
    | slot j =>
      show (s'.slot j).cid = (s.slot j).cid
      rw [hslot]
      exact hsame j rfl
    | cpu | clearer => exact hrest _ hq (fun _ => by simp)
  have hnew : ∀ j v, e = .store j v → s'.held (.slot j) = v.cid := by
    rintro j v rfl
    show (s'.slot j).cid = v.cid
    rw [hslot]
    exact congrArg Slot.cid (update_self ..)
  have hold : ∀ j v k, e = .store j v → k ≠ j → ((s.apply e).slot k).cid = (s.slot k).cid := by
    rintro j v k rfl hkj
    exact congrArg Slot.cid (update_of_ne hkj ..)
  rw [hmask]
  cases hm with
  | quiet he =>
    have hsame : (s.apply e).slot = s.slot ∧ (s.apply e).mask = s.mask := by cases e
      <;> first | exact he.elim | exact ⟨rfl, rfl⟩
    rw [hsame.2]
    refine hk.congr fun q => ?_
    by_cases hq : q = p
    · rw [hq, hp', hh]
    · exact hother q hq fun j _ => by rw [hsame.1]
  | @lazy _ j c hj hv =>
    refine hk.congr fun q => ?_
    by_cases hq : q = p
    · rw [hq, hp', hh]
    · refine hother q hq fun k _ => ?_
      by_cases hkj : k = j
      · show (update s.slot j (.lazy c) k).cid = (s.slot k).cid
        rw [hkj, hv, update_self]
        rfl
      · exact hold j _ k rfl hkj
  | @won j c hj hv =>
    refine hk.move (p := .slot j) (q := p) (by rw [held, hv]; rfl) hh (hnew j _ rfl) hp' fun r hr hrp => ?_
    exact hother r hrp fun k hk => hold j _ k rfl fun hkj => hr (hkj ▸ hk)
  | @unset j c hj hv =>
    refine hk.move (p := .slot j) (q := p) hv hh (hnew j _ rfl) hp' fun r hr hrp => ?_
    exact hother r hrp fun k hk => hold j _ k rfl fun hkj => hr (hkj ▸ hk)
  | @write j c hj hv =>
    refine hk.move (p := p) (q := .slot j) hh (by rw [held, hv]; rfl) hp' (hnew j _ rfl) fun r hrp hr => ?_
    exact hother r hrp fun k hk => hold j _ k rfl fun hkj => hr (hkj ▸ hk)
  | clear => exact hk.drop hh hp' fun q hq => hother q hq fun _ _ => rfl
  | set hc => exact hk.take hh hc hp' fun q hq => hother q hq fun _ _ => rfl

theorem Moves.slotOk (hm : Moves s own target a b e) (hown : own ≠ some j) (hok : pc.SlotOk (s.slot j)) :
    pc.SlotOk ((s.apply e).slot j) := by
  have hstore : ∀ {k v}, (k = j → pc.SlotOk v) → pc.SlotOk ((s.apply (.store k v)).slot j) := by
    intro k v hv
    show pc.SlotOk (update s.slot k v j)
    by_cases hk : j = k
    · subst hk
      rw [update_self]
      exact hv rfl
    · rwa [update_of_ne hk]
  cases hm with
  | quiet he => cases e <;> first | exact he.elim | exact hok
  | lazy _ hv => exact hstore fun hk => Pc.SlotOk.lazy (hv ▸ hk ▸ hok)
  | won => exact hstore fun _ => hok.unset
  | unset hk | write hk => exact hstore fun hj => absurd (hj ▸ hk) hown
  | clear | set => exact hok

theorem Get.slotOk {g : Get} {g' : Option Get} (hok : (Pc.get g : Pc n).SlotOk (s.slot i))
    (hnext : g.next s i = some (g', e)) : (g'.elim .idle .get : Pc n).SlotOk ((s.apply e).slot i) := by
  cases g <;> simp only [Get.next] at hnext <;> repeat' split at hnext
  all_goals cases hnext
  all_goals
    first
    | trivial
    | exact fun hblank => (Bool.false_ne_true hblank).elim
    | exact fun _ => hok rfl
    | exact fun _ => update_self ..
    | exact fun _ => hok.resolve_left (by assumption)
    | exact .inl (by assumption)
    | exact fun _ => by assumption

theorem Migrate.slotOk (hok : (Pc.migrate t g).SlotOk (s.slot i))
    (hnext : g.next s i many t = (g', e)) : (g'.elim (.idle : Pc n) (.migrate t)).SlotOk ((s.apply e).slot i) := by
  have hkeep : ∀ {src blank cid st r e'}, g = .steal src blank cid st → st.next s src cid = (r, e') → blank = true →
      (s.apply e').slot i = .unset := by
    rintro src blank cid st r e' rfl hst hblank
    have hm : Moves s none (some (src, cid, st)) none _ e' := Steal.moves hst
    have hold : (Pc.migrate t (.write cid) : Pc n).SlotOk (s.slot i) := fun _ => hok hblank
    exact hm.slotOk (by simp) hold rfl
  cases g <;> simp only [Migrate.next] at hnext <;> repeat' split at hnext
  all_goals cases hnext
  all_goals
    first
    | trivial
    | exact fun hblank => (Bool.false_ne_true hblank).elim
    | exact hok
    | exact fun hblank => of_decide_eq_true hblank
    | exact fun hblank => hkeep rfl (by assumption) (by assumption)

/-- What a step under the lock of a runqueue does, but for the tasks. -/
structure Pc.Does (s : State n m) (i : Fin n) (pc pc' : Pc n) (e : Effect n) : Prop where
  moves : Moves s (some i) pc.steal pc.hand pc'.hand e
  slotOk : pc'.SlotOk ((s.apply e).slot i)
  /-- The id that is claimed is in the slot. -/
  claim : ∀ {c}, pc'.claim = some c → (s.apply e).slot i = .valid c
  /-- An id is about to be taken from now on, or it was before. -/
  steal : ∀ {j c st'}, pc'.steal = some (j, c, st') →
    st' = .lazy ∨ ∃ st, pc.steal = some (j, c, st) ∧ st.next s j c = (.more st', e)

theorem Get.next_record {g : Get} (hnext : g.next s i = some (some (.record c), e)) : (s.apply e).slot i = .valid c := by
  cases g <;> simp only [Get.next] at hnext <;> repeat' split at hnext
  all_goals cases hnext
  all_goals first | assumption | exact update_self ..

theorem Migrate.next_steal {blank : Bool} {st' : Steal} (hnext : g.next s i many t = (some (.steal j blank c st'), e)) :
    st' = .lazy ∨ ∃ st, (Pc.migrate t g).steal = some (j, c, st) ∧ st.next s j c = (.more st', e) := by
  cases g <;> simp only [Migrate.next] at hnext <;> repeat' split at hnext
  all_goals cases hnext
  all_goals first | exact .inl rfl | exact .inr ⟨_, rfl, by assumption⟩

theorem Pc.does (hplaced : (s.pc i).Placed s i) (hok : (s.pc i).SlotOk (s.slot i))
    (hstep : (s.pc i).step s i many = some (pc', e)) : Does s i (s.pc i) pc' e := by
  cases hpc : s.pc i <;> rw [hpc] at hplaced hok hstep
  case idle => cases hstep
  case leave prev =>
    cases hstep
    split <;> exact ⟨.quiet trivial, trivial, nofun, nofun⟩
  case putLazy prev p =>
    have hfree : ∀ d, ¬ s.Claims i d := fun d => not_claims_of_none hplaced (by rw [hpc]; rfl)
    rcases hnext : p.next s i with ⟨_ | p', e'⟩ <;> simp only [Pc.step, hnext] at hstep <;> cases hstep <;>
      exact ⟨PutLazy.moves hfree hnext, trivial, nofun, nofun⟩
  case unsetPrev prev =>
    cases hstep
    exact ⟨.quiet trivial, trivial, nofun, nofun⟩
  case enter =>
    cases hstep
    split
    · exact ⟨.quiet trivial, nofun, nofun, nofun⟩
    · exact ⟨.quiet trivial, trivial, nofun, nofun⟩
  case get g =>
    obtain ⟨⟨g', e'⟩, hnext, heq⟩ := map_eq_some_iff.1 hstep
    cases heq
    have hm := Get.moves (fun hclaim _ => not_claims_of_none hplaced.1 (by rw [hpc]; exact hclaim)) hok hnext
    cases g' with
    | none => exact ⟨hm, Get.slotOk hok hnext, nofun, nofun⟩
    | some g' =>
      refine ⟨hm, Get.slotOk hok hnext, fun hc => ?_, nofun⟩
      cases g' <;> cases hc
      exact Get.next_record hnext
  case put p =>
    have hfree : ∀ d, ¬ s.Claims i d := fun d hclaim => (nomatch hplaced.symm.trans hclaim.1)
    rcases hnext : p.next s i with ⟨_ | p', e'⟩ <;> simp only [Pc.step, hnext] at hstep <;> cases hstep <;>
      exact ⟨Put.moves hfree hnext, trivial, nofun, nofun⟩
  case migrate t g =>
    rcases hnext : g.next s i many t with ⟨_ | g', e'⟩ <;> simp only [Pc.step, hnext] at hstep <;> cases hstep
    · exact ⟨Migrate.moves hok hnext, Migrate.slotOk hok hnext, nofun, nofun⟩
    · refine ⟨Migrate.moves hok hnext, Migrate.slotOk hok hnext, nofun, fun hst => ?_⟩
      cases g' <;> cases hst
      exact Migrate.next_steal hnext

/-! ## Tasks -/

@[simp] theorem State.apply_curr (e : Effect n) : (s.apply e).curr = s.curr := by cases e <;> rfl

@[simp] theorem State.apply_active (e : Effect n) : (s.apply e).active = s.active := by cases e <;> rfl

@[simp] theorem State.apply_mm (e : Effect n) : (s.apply e).mm = s.mm := by cases e <;> rfl

@[simp] theorem State.apply_pc (e : Effect n) : (s.apply e).pc = s.pc := by cases e <;> rfl

@[simp] theorem State.apply_clearer (e : Effect n) : (s.apply e).clearer = s.clearer := by cases e <;> rfl

/-- Where tasks run, and which of them have an id. -/
structure Tasks (s : State n m) : Prop where
  inj : ∀ {i j}, s.curr i = s.curr j → i = j
  space : ∀ {t}, s.mm t ≠ .ours → s.mmCid t = none
  away : ∀ {t c}, s.mmCid t = some c → (∃ i, s.curr i = t) ∨ ∃ i, (s.pc i).prevTask = some t
  prev : ∀ {i t}, (s.pc i).prevTask = some t → ∀ j, s.curr j ≠ t
  placed : ∀ i, (s.pc i).Placed s i

theorem Pc.Placed.congr (h : pc.Placed s i) (hcurr : s'.curr i = s.curr i)
    (hactive : s'.active (s.curr i) = s.active (s.curr i)) (hmm : s'.mm (s.curr i) = s.mm (s.curr i))
    (hcid : s'.mmCid (s.curr i) = s.mmCid (s.curr i))
    (hprev : ∀ p, pc.prevTask = some p → s'.active p = s.active p ∧ (s'.mmCid p = s.mmCid p ∨ s'.mmCid p = none)) :
    pc.Placed s' i := by
  cases pc with
  | leave prev =>
    obtain ⟨hactive', hcid'⟩ := hprev prev rfl
    refine ⟨?_, fun hoff => hcid'.elim (fun hcid' => ?_) id⟩
    · rw [hcurr, hcid]
      exact h.1
    · rw [hcid']
      exact h.2 (hactive' ▸ hoff)
  | _ =>
    simp only [Pc.Placed, hcurr, hactive, hmm, hcid] at h ⊢
    exact h

/-- What a step under the lock of a runqueue does to the tasks: it gives the current task the id it has claimed or takes
it away, or takes it away from the task that is switched from. -/
structure TaskStep (s : State n m) (i : Fin n) (pc' : Pc n) (e : Effect n) : Prop where
  cid : ∀ t, (s.apply e).mmCid t = s.mmCid t ∨
    (t = s.curr i ∧ ((s.apply e).mmCid t = none ∨ s.mm t = .ours ∧ (s.apply e).mmCid t = (s.pc i).claim)) ∨
    ((s.pc i).prevTask = some t ∧ (s.apply e).mmCid t = none)
  prev : ∀ {t}, pc'.prevTask = some t → (s.pc i).prevTask = some t
  dropped : ∀ {t}, (s.pc i).prevTask = some t → pc'.prevTask = some t ∨ (s.apply e).mmCid t = none
  placed : pc'.Placed (s.apply e) i

theorem taskStep_of_same (hcid : (s.apply e).mmCid = s.mmCid) (hprev : pc'.prevTask = (s.pc i).prevTask)
    (hplaced : pc'.Placed s i) : TaskStep s i pc' e where
  cid t := .inl (congrFun hcid t)
  prev ht := hprev ▸ ht
  dropped ht := .inl (hprev ▸ ht)
  placed := hplaced.congr (by simp) (by simp) (by simp) (by rw [hcid]) fun p _ => ⟨by simp, .inl (by rw [hcid])⟩

/-- The current task gets an id, or gives it back. -/
theorem taskStep_setCid {o : Option Nat} (hprev : (s.pc i).prevTask = none)
    (ho : o = none ∨ s.mm (s.curr i) = .ours ∧ o = (s.pc i).claim) (hoff : s.active (s.curr i) = false → o = none) :
    TaskStep s i .idle (.setCid (s.curr i) o) := by
  have hself : (s.apply (.setCid (s.curr i) o)).mmCid (s.curr i) = o := update_self ..
  refine ⟨fun t => ?_, nofun, fun ht => (nomatch hprev.symm.trans ht), fun h => hself.trans (hoff h)⟩
  by_cases ht : t = s.curr i
  · subst ht
    rw [hself]
    exact .inr (.inl ⟨rfl, ho⟩)
  · exact .inl (update_of_ne ht ..)

theorem Get.next_mmCid {g g' : Get} (hnext : g.next s i = some (some g', e)) : (s.apply e).mmCid = s.mmCid := by
  cases g <;> simp only [Get.next] at hnext <;> repeat' split at hnext
  all_goals cases hnext
  all_goals rfl

theorem Get.next_none {g : Get} (hnext : g.next s i = some (none, e)) :
    ∃ c, g = .record c ∧ e = .setCid (s.curr i) (some c) := by
  cases g <;> simp only [Get.next] at hnext <;> repeat' split at hnext
  all_goals cases hnext
  exact ⟨_, rfl, rfl⟩

theorem Put.next_mmCid {p p' : Put} (hnext : p.next s i = (some p', e)) : (s.apply e).mmCid = s.mmCid := by
  cases p <;> simp only [Put.next] at hnext <;> repeat' split at hnext
  all_goals cases hnext
  all_goals rfl

theorem Put.next_none {p : Put} (hnext : p.next s i = (none, e)) : e = .setCid (s.curr i) none := by
  cases p <;> simp only [Put.next] at hnext <;> repeat' split at hnext
  all_goals cases hnext
  rfl

theorem PutLazy.next_mmCid (p : PutLazy) : (s.apply (p.next s i).2).mmCid = s.mmCid := by
  cases p <;> simp only [PutLazy.next] <;> (try split) <;> rfl

theorem Steal.next_mmCid {st : Steal} {r : Result} (hnext : st.next s j c = (r, e)) : (s.apply e).mmCid = s.mmCid := by
  cases st <;> simp only [next] at hnext <;> split at hnext <;> cases hnext <;> rfl

theorem Migrate.next_mmCid (hnext : g.next s i many t = (g', e)) : (s.apply e).mmCid = s.mmCid := by
  cases g <;> simp only [Migrate.next] at hnext <;> repeat' split at hnext
  all_goals cases hnext
  all_goals first | rfl | exact next_mmCid (by assumption)

theorem Clearer.next_mmCid {k k' : Clearer n} (hstep : k.step s = some (k', e)) : (s.apply e).mmCid = s.mmCid := by
  cases k <;> simp only [step] at hstep <;> repeat' split at hstep
  all_goals cases hstep
  all_goals first | rfl | exact Steal.next_mmCid (by assumption)

theorem Tasks.step (h : Tasks s) (hstep : (s.pc i).step s i many = some (pc', e)) : TaskStep s i pc' e := by
  have hplaced := h.placed i
  cases hpc : s.pc i <;> rw [hpc] at hplaced hstep
  case idle => cases hstep
  case leave prev =>
    cases hstep
    split
    · exact taskStep_of_same rfl (by rw [hpc]; rfl) hplaced.1
    · next hprev =>
      refine ⟨fun t => .inl rfl, nofun, fun {t} ht => .inr ?_, hplaced.1⟩
      rw [hpc] at ht
      cases ht
      by_cases hours : s.mm prev = .ours
      · exact hplaced.2 (Bool.eq_false_iff.2 fun hon => hprev ⟨hon, hours⟩)
      · exact h.space hours
  case putLazy prev p =>
    cases hstep
    refine taskStep_of_same p.next_mmCid ?_ ?_ <;> cases (p.next s i).1
    · rw [hpc]; rfl
    · rw [hpc]; rfl
    · exact hplaced
    · exact hplaced
  case unsetPrev prev =>
    cases hstep
    have hprev : (s.pc i).prevTask = some prev := by rw [hpc]; rfl
    have hself : (s.apply (.dropCid prev)).mmCid prev = none := update_self ..
    refine ⟨fun t => ?_, nofun, fun {t} ht => .inr ?_, (update_of_ne (h.prev hprev i) ..).trans hplaced⟩
    · by_cases ht : t = prev
      · exact .inr (.inr ⟨ht ▸ hprev, ht ▸ hself⟩)
      · exact .inl (update_of_ne ht ..)
    · cases hprev.symm.trans ht
      exact hself
  case enter =>
    cases hstep
    split
    · next hon => exact taskStep_of_same rfl (by rw [hpc]; rfl) ⟨hplaced, hon⟩
    · exact taskStep_of_same rfl (by rw [hpc]; rfl) fun _ => hplaced
  case get g =>
    obtain ⟨⟨g', e'⟩, hnext, heq⟩ := map_eq_some_iff.1 hstep
    cases heq
    cases g' with
    | some g' => exact taskStep_of_same (Get.next_mmCid hnext) (by rw [hpc]; rfl) hplaced
    | none =>
      obtain ⟨c, rfl, rfl⟩ := Get.next_none hnext
      exact taskStep_setCid (by rw [hpc]; rfl) (.inr ⟨hplaced.2.2, by rw [hpc]; rfl⟩) fun hoff =>
        (nomatch hplaced.2.1.symm.trans hoff)
  case put p =>
    rcases hnext : p.next s i with ⟨_ | p', e'⟩ <;> simp only [Pc.step, hnext] at hstep <;> cases hstep
    · cases Put.next_none hnext
      exact taskStep_setCid (by rw [hpc]; rfl) (.inl rfl) fun _ => rfl
    · exact taskStep_of_same (Put.next_mmCid hnext) (by rw [hpc]; rfl) hplaced
  case migrate t g =>
    rcases hnext : g.next s i many t with ⟨_ | g', e'⟩ <;> simp only [Pc.step, hnext] at hstep <;> cases hstep <;>
      exact taskStep_of_same (Migrate.next_mmCid hnext) (by rw [hpc]; rfl) hplaced

theorem Tasks.of_step (h : Tasks s) (hs : TaskStep s i pc' e) : Tasks ((s.apply e).goto i pc') := by
  have hpc : ∀ {k}, k ≠ i → ((s.apply e).goto i pc').pc k = s.pc k := fun hk =>
    (update_of_ne hk ..).trans (by rw [apply_pc])
  have hpci : ((s.apply e).goto i pc').pc i = pc' := update_self ..
  have hcurr : ((s.apply e).goto i pc').curr = s.curr := apply_curr e
  have hactive : ((s.apply e).goto i pc').active = s.active := apply_active e
  have hmm : ((s.apply e).goto i pc').mm = s.mm := apply_mm e
  refine ⟨fun {k l} hkl => ?_, fun {t} ht => ?_, fun {t c} ht => ?_, fun {k t} ht => ?_, fun k => ?_⟩
  · rw [hcurr] at hkl
    exact h.inj hkl
  · rw [hmm] at ht
    rcases hs.cid t with hcid | ⟨-, hcid | ⟨hours, -⟩⟩ | ⟨-, hcid⟩
    · exact hcid.trans (h.space ht)
    · exact hcid
    · exact absurd hours ht
    · exact hcid
  · rw [hcurr]
    have hnone : (s.apply e).mmCid t ≠ none := fun hnone => (nomatch hnone.symm.trans ht)
    rcases hs.cid t with hcid | ⟨rfl, -⟩ | ⟨-, hcid⟩
    · rcases h.away (hcid.symm.trans ht) with hrun | ⟨k, hk⟩
      · exact .inl hrun
      · by_cases hki : k = i
        · subst hki
          exact .inr ⟨k, (congrArg Pc.prevTask hpci).trans ((hs.dropped hk).resolve_right hnone)⟩
        · exact .inr ⟨k, hpc hki ▸ hk⟩
    · exact .inl ⟨i, rfl⟩
    · exact absurd hcid hnone
  · rw [hcurr]
    by_cases hki : k = i
    · subst hki
      exact h.prev (hs.prev (hpci ▸ ht))
    · exact h.prev (hpc hki ▸ ht)
  · by_cases hki : k = i
    · subst hki
      rw [hpci]
      exact hs.placed.congr rfl rfl rfl rfl fun _ _ => ⟨rfl, .inl rfl⟩
    · rw [hpc hki]
      refine (h.placed k).congr (congrFun hcurr k) (congrFun hactive _) (congrFun hmm _) ?_ fun p hp =>
        ⟨congrFun hactive p, ?_⟩
      · rcases hs.cid (s.curr k) with hcid | ⟨hcid, -⟩ | ⟨hcid, -⟩
        · exact hcid
        · exact absurd (h.inj hcid) hki
        · exact absurd rfl (h.prev hcid k)
      · rcases hs.cid p with hcid | ⟨hcid, -⟩ | ⟨-, hcid⟩
        · exact .inl hcid
        · exact absurd hcid.symm (h.prev hp i)
        · exact .inr hcid

theorem Tasks.of_same (h : Tasks s) (hcurr : s'.curr = s.curr) (hpc : s'.pc = s.pc) (hmm : s'.mm = s.mm)
    (hactive : s'.active = s.active) (hcid : s'.mmCid = s.mmCid) : Tasks s' := by
  refine ⟨?_, ?_, ?_, ?_, fun k => ?_⟩
  · rw [hcurr]
    exact h.inj
  · rw [hmm, hcid]
    exact h.space
  · rw [hcurr, hpc, hcid]
    exact h.away
  · rw [hcurr, hpc]
    exact h.prev
  · rw [hpc]
    exact (h.placed k).congr (by rw [hcurr]) (by rw [hactive]) (by rw [hmm]) (by rw [hcid]) fun p _ =>
      ⟨by rw [hactive], .inl (by rw [hcid])⟩

/-! ## The invariant -/

structure Inv (s : State n m) : Prop where
  kept : Kept s.held s.mask
  slotOk : ∀ i, (s.pc i).SlotOk (s.slot i)
  tasks : Tasks s

/-- A program that has just begun: it has no id and knows nothing of the slots. -/
structure Pc.Fresh (pc : Pc n) : Prop where
  hand : pc.hand = none
  steal : pc.steal = none
  claim : pc.claim = none
  slotOk : ∀ v, pc.SlotOk v

/-- Calls begin, but the slots and the mask are left alone, and no task gets an id. -/
structure Begins (s s' : State n m) : Prop where
  slot : s'.slot = s.slot
  mask : s'.mask = s.mask
  pc : ∀ i, s'.pc i = s.pc i ∨ s.pc i = .idle ∧ (s'.pc i).Fresh
  clearer : ∀ k, s'.clearer k = s.clearer k ∨ s.clearer k = .idle ∧ ∃ cpu, s'.clearer k = .read cpu
  tasks : Tasks s'
  claims : ∀ {j c}, s'.Claims j c → s.Claims j c ∧ s'.curr j = s.curr j

theorem Inv.begins (h : Inv s) (hb : Begins s s') : Inv s' := by
  refine ⟨?_, fun i => ?_, hb.tasks⟩
  · rw [hb.mask]
    refine h.kept.congr fun p => ?_
    cases p with
    | slot j => exact congrArg Slot.cid (congrFun hb.slot j)
    | cpu j =>
      rcases hb.pc j with hj | ⟨hj, hfresh⟩
      · exact congrArg Pc.hand hj
      · exact hfresh.hand.trans (congrArg Pc.hand hj).symm
    | clearer k =>
      rcases hb.clearer k with hk | ⟨hk, cpu, hk'⟩
      · exact congrArg hand hk
      · exact (congrArg hand hk').trans (congrArg hand hk).symm
  · rw [hb.slot]
    rcases hb.pc i with hi | ⟨-, hfresh⟩
    · rw [hi]
      exact h.slotOk i
    · exact hfresh.slotOk _

theorem begins_of_same (h : Tasks s) (hslot : s'.slot = s.slot) (hmask : s'.mask = s.mask) (hpc : s'.pc = s.pc)
    (hcurr : s'.curr = s.curr) (hmm : s'.mm = s.mm) (hactive : s'.active = s.active) (hcid : s'.mmCid = s.mmCid)
    (hclearer : ∀ k, s'.clearer k = s.clearer k ∨ s.clearer k = .idle ∧ ∃ cpu, s'.clearer k = .read cpu) :
        Begins s s' := by
  refine ⟨hslot, hmask, fun i => .inl (congrFun hpc i), hclearer, h.of_same hcurr hpc hmm hactive hcid,
    fun hj => ⟨?_, congrFun hcurr _⟩⟩
  unfold State.Claims at hj ⊢
  rwa [hcurr, hpc, hmm, hactive, hcid] at hj

/-- A call of the task that a CPU runs, which may change two of its fields. -/
def State.call (cpu : Fin n) (pc : Pc n) (active : Bool) (mm : Space) (s : State n m) : State n m :=
  { s with
    pc := update s.pc cpu pc
    active := update s.active (s.curr cpu) active
    mm := update s.mm (s.curr cpu) mm }

theorem begins_call {on : Bool} {mm : Space} (h : Tasks s) (hidle : s.pc i = .idle) (hfresh : pc.Fresh)
    (hprev : pc.prevTask = none) (hspace : mm ≠ .ours → s.mmCid (s.curr i) = none)
    (hplaced : pc.Placed (s.call i pc on mm) i)
    (hclaims : ∀ {c}, on = true → mm = .ours → s.mmCid (s.curr i) = some c → s.Claims i c) :
        Begins s (s.call i pc on mm) := by
  have hpci : (s.call i pc on mm).pc i = pc := update_self ..
  have hpc : ∀ {k}, k ≠ i → (s.call i pc on mm).pc k = s.pc k := fun hk => update_of_ne hk ..
  have hactive : ∀ {t}, t ≠ s.curr i → (s.call i pc on mm).active t = s.active t := fun ht => update_of_ne ht ..
  have hmm : ∀ {t}, t ≠ s.curr i → (s.call i pc on mm).mm t = s.mm t := fun ht => update_of_ne ht ..
  have hne : ∀ {k}, k ≠ i → s.curr k ≠ s.curr i := fun hk heq => hk (h.inj heq)
  have hprevs : ∀ k, ((s.call i pc on mm).pc k).prevTask = (s.pc k).prevTask := by
    intro k
    by_cases hk : k = i
    · rw [hk, hpci, hprev, hidle]
      rfl
    · rw [hpc hk]
  refine ⟨rfl, rfl, fun k => ?_, fun _ => .inl rfl, ⟨h.inj, fun {t} ht => ?_, ?_, ?_, fun k => ?_⟩,
    fun {k c} hk => ⟨?_, rfl⟩⟩
  · by_cases hk : k = i
    · subst hk
      exact .inr ⟨hidle, hpci.symm ▸ hfresh⟩
    · exact .inl (hpc hk)
  · by_cases hti : t = s.curr i
    · subst hti
      exact hspace (update_self (s.curr i) mm s.mm ▸ ht)
    · exact h.space (hmm hti ▸ ht)
  · simp only [hprevs]
    exact h.away
  · simp only [hprevs]
    exact h.prev
  · by_cases hk : k = i
    · subst hk
      rw [hpci]
      exact hplaced
    · rw [hpc hk]
      exact (h.placed k).congr rfl (hactive (hne hk)) (hmm (hne hk)) rfl fun p hp =>
        ⟨hactive (h.prev hp i).symm, .inl rfl⟩
  · by_cases hki : k = i
    · subst hki
      obtain ⟨hon, hours, hcid | hclaim⟩ := hk
      · exact hclaims ((update_self ..).symm.trans hon) ((update_self ..).symm.trans hours) hcid
      · exact (nomatch hfresh.claim.symm.trans ((congrArg Pc.claim hpci).symm.trans hclaim))
    · unfold State.Claims at hk ⊢
      rw [hpc hki] at hk
      exact hactive (hne hki) ▸ hmm (hne hki) ▸ hk

theorem Pc.Fresh.idle : (Pc.idle : Pc n).Fresh := ⟨rfl, rfl, rfl, fun _ => trivial⟩

theorem State.pc_update_idle (hidle : s.pc i = .idle) : update s.pc i .idle = s.pc :=
  Function.update_eq_self_iff.2 hidle.symm

theorem State.call_same (on : Bool) : s.call i pc on (s.mm (s.curr i)) = (s.setActive (s.curr i) on).goto i pc := by
  rw [call, update_eq_self]
  rfl

/-- A task of another address space holds no cid, whether it is active or not. -/
theorem begins_setActive (h : Tasks s) (hidle : s.pc i = .idle) (hmm : s.mm (s.curr i) = .other) (on : Bool) :
    Begins s (s.setActive (s.curr i) on) := by
  have hnone : s.mmCid (s.curr i) = none := h.space fun hours => (nomatch hmm.symm.trans hours)
  have heq : s.call i .idle on .other = s.setActive (s.curr i) on := by
    rw [call, ← hmm, update_eq_self, pc_update_idle hidle]
    rfl
  rw [← heq]
  exact begins_call h hidle .idle rfl (fun _ => hnone) (fun _ => hnone) nofun

theorem begins_deactivate (h : Tasks s) (hrun : s.deactivate i = some s') : Begins s s' := by
  simp only [deactivate, ite_none_right_eq_some] at hrun
  obtain ⟨hidle, hrun⟩ := hrun
  cases hmm : s.mm (s.curr i) <;> rw [hmm] at hrun <;> cases hrun
  · exact begins_of_same h rfl rfl rfl rfl rfl rfl rfl fun _ => .inl rfl
  · rw [← call_same, hmm]
    exact begins_call h hidle ⟨rfl, rfl, rfl, fun _ => trivial⟩ rfl (absurd rfl) (update_self ..) nofun
  · exact begins_setActive h hidle hmm false

theorem begins_afterExecve (h : Tasks s) (hrun : s.schedMmCidAfterExecve i = some s') : Begins s s' := by
  simp only [schedMmCidAfterExecve, ite_none_right_eq_some] at hrun
  obtain ⟨⟨hidle, hoff⟩, hrun⟩ := hrun
  have hplaced := h.placed i
  rw [hidle] at hplaced
  have hnone : s.mmCid (s.curr i) = none := hplaced hoff
  cases hmm : s.mm (s.curr i) <;> rw [hmm] at hrun <;> cases hrun
  · exact begins_of_same h rfl rfl rfl rfl rfl rfl rfl fun _ => .inl rfl
  · rw [← call_same, hmm]
    exact begins_call h hidle ⟨rfl, rfl, rfl, nofun⟩ rfl (fun _ => hnone) ⟨hnone, update_self .., update_self ..⟩
      fun _ _ hcid => (nomatch hnone.symm.trans hcid)
  · exact begins_setActive h hidle hmm true

theorem begins_switchTo (h : Tasks s) (hrun : s.switchTo i t = some s') : Begins s s' := by
  obtain ⟨⟨hidle, hnew⟩, rfl⟩ := Run.of_guard hrun
  have hnone : s.mmCid t = none := by
    rw [eq_none_iff_forall_not_mem]
    intro c hc
    rcases h.away hc with ⟨k, hk⟩ | ⟨k, hk⟩
    · exact (hnew k).1 hk
    · exact (hnew k).2 hk
  set s' := goto i (.leave (s.curr i)) { s with curr := update s.curr i t } with hs'
  have hself : s'.curr i = t := update_self ..
  have hcurr : ∀ {k}, k ≠ i → s'.curr k = s.curr k := fun hk => update_of_ne hk ..
  have hpci : s'.pc i = .leave (s.curr i) := update_self ..
  have hpc : ∀ {k}, k ≠ i → s'.pc k = s.pc k := fun hk => update_of_ne hk ..
  have hinj : ∀ {k l}, s'.curr k = s'.curr l → k = l := by
    intro k l hkl
    by_cases hk : k = i <;> by_cases hl : l = i
    · exact hk.trans hl.symm
    · rw [hk, hself, hcurr hl] at hkl
      exact absurd hkl.symm (hnew l).1
    · rw [hl, hself, hcurr hk] at hkl
      exact absurd hkl (hnew k).1
    · rw [hcurr hk, hcurr hl] at hkl
      exact h.inj hkl
  have hcid : s'.mmCid (s'.curr i) = none := hself.symm ▸ hnone
  refine ⟨rfl, rfl, fun k => ?_, fun _ => .inl rfl,
    ⟨hinj, h.space, fun {u c} hu => ?_, fun {k u} hu l => ?_, fun k => ?_⟩,
    fun {k c} hk => ?_⟩
  · by_cases hki : k = i
    · subst hki
      exact .inr ⟨hidle, hpci.symm ▸ ⟨rfl, rfl, rfl, fun _ => trivial⟩⟩
    · exact .inl (hpc hki)
  · rcases h.away hu with ⟨k, hk⟩ | ⟨k, hk⟩ <;> by_cases hki : k = i
    · exact .inr ⟨i, (congrArg Pc.prevTask hpci).trans (congrArg some (hki ▸ hk))⟩
    · exact .inl ⟨k, (hcurr hki).trans hk⟩
    · rw [hki, hidle] at hk
      cases hk
    · exact .inr ⟨k, (congrArg Pc.prevTask (hpc hki)).trans hk⟩
  · by_cases hki : k = i <;> by_cases hl : l = i
    · rw [hki, hpci] at hu
      cases hu
      rw [hl, hself]
      exact (hnew i).1.symm
    · rw [hki, hpci] at hu
      cases hu
      rw [hcurr hl]
      exact fun heq => hl (h.inj heq)
    · rw [hpc hki] at hu
      rw [hl, hself]
      exact fun heq => (hnew k).2 (heq ▸ hu)
    · rw [hpc hki] at hu
      rw [hcurr hl]
      exact h.prev hu l
  · by_cases hki : k = i
    · have hplaced := h.placed i
      rw [hidle] at hplaced
      rw [hki, hpci]
      exact ⟨hcid, hplaced⟩
    · rw [hpc hki]
      exact (h.placed k).congr (hcurr hki) rfl rfl rfl fun _ _ => ⟨rfl, .inl rfl⟩
  · by_cases hki : k = i
    · subst hki
      exact absurd hk (not_claims_of_none hcid (congrArg Pc.claim hpci))
    · unfold State.Claims at hk ⊢
      rw [hcurr hki, hpc hki] at hk
      exact ⟨hk, hcurr hki⟩

def Op.actor : Op n m → Option (Fin n ⊕ Fin m)
  | .step cpu _ => some (.inl cpu)
  | .clearStep k => some (.inr k)
  | _ => none

/-- What an operation does: calls begin, or a program takes a step. -/
inductive Acts (s s' : State n m) : Option (Fin n ⊕ Fin m) → Prop
  | begins (h : Begins s s') : Acts s s' none
  | cpu (i : Fin n) (many : Bool) (pc' : Pc n) (e : Effect n) (hstep : (s.pc i).step s i many = some (pc', e))
    (h : s' = (s.apply e).goto i pc') : Acts s s' (some (.inl i))
  | clearer (k : Fin m) (c' : Clearer n) (e : Effect n) (hstep : (s.clearer k).step s = some (c', e))
    (h : s' = (s.apply e).setClearer k c') : Acts s s' (some (.inr k))

theorem Op.acts {op : Op n m} (h : Tasks s) (hrun : op.run s = some s') : Acts s s' op.actor := by
  cases op with
  | switchTo i t => exact .begins (begins_switchTo h hrun)
  | exitSignals | beforeExecve => exact .begins (begins_deactivate h hrun)
  | afterExecve i => exact .begins (begins_afterExecve h hrun)
  | migrateFrom t i =>
    cases hrun
    exact .begins (begins_of_same h rfl rfl rfl rfl rfl rfl rfl fun _ => .inl rfl)
  | migrateTo i t =>
    obtain ⟨⟨hidle, -⟩, rfl⟩ := Run.of_guard hrun
    have hplaced := h.placed i
    rw [hidle] at hplaced
    have heq : s.call i (.migrate t .start) (s.active (s.curr i)) (s.mm (s.curr i)) = s.goto i (.migrate t .start) := by
      rw [call, update_eq_self, update_eq_self]
      rfl
    rw [← heq]
    exact .begins (begins_call h hidle ⟨rfl, rfl, rfl, nofun⟩ rfl h.space
      (fun hoff => hplaced ((update_self ..).symm.trans hoff)) fun hon hours hcid => ⟨hon, hours, .inl hcid⟩)
  | remoteClear k cpu =>
    obtain ⟨hidle, rfl⟩ := Run.of_guard hrun
    refine .begins (begins_of_same h rfl rfl rfl rfl rfl rfl rfl fun l => ?_)
    by_cases hl : l = k
    · subst hl
      exact .inr ⟨hidle, cpu, update_self ..⟩
    · exact .inl (update_of_ne hl ..)
  | setMm i mm =>
    obtain ⟨⟨hidle, hoff⟩, rfl⟩ := Run.of_guard hrun
    have hplaced := h.placed i
    rw [hidle] at hplaced
    have heq : s.call i .idle false mm = { s with mm := update s.mm (s.curr i) mm } := by
      rw [call, ← hoff, update_eq_self, pc_update_idle hidle]
    rw [← heq]
    exact .begins (begins_call h hidle .idle rfl (fun _ => hplaced hoff) (fun _ => hplaced hoff) nofun)
  | otherGet use lock =>
    obtain ⟨-, rfl⟩ := Run.of_guard hrun
    exact .begins (begins_of_same h rfl rfl rfl rfl rfl rfl rfl fun _ => .inl rfl)
  | step i many =>
    obtain ⟨⟨pc', e⟩, hstep, rfl⟩ := map_eq_some_iff.1 hrun
    exact .cpu i many pc' e hstep rfl
  | clearStep k =>
    obtain ⟨⟨c', e⟩, hstep, rfl⟩ := map_eq_some_iff.1 hrun
    exact .clearer k c' e hstep rfl

theorem Inv.cpu (h : Inv s) (hstep : (s.pc i).step s i many = some (pc', e)) : Inv ((s.apply e).goto i pc') := by
  obtain ⟨hm, hok, -, -⟩ := Pc.does (h.tasks.placed i) (h.slotOk i) hstep
  have hpci : ((s.apply e).goto i pc').pc i = pc' := update_self ..
  have hpc : ∀ {k}, k ≠ i → ((s.apply e).goto i pc').pc k = s.pc k := fun hk =>
    (update_of_ne hk ..).trans (by rw [apply_pc])
  refine ⟨hm.kept h.kept (p := .cpu i) rfl rfl rfl (congrArg Pc.hand hpci) fun q hq hslot => ?_, fun k => ?_,
    h.tasks.of_step (h.tasks.step hstep)⟩
  · cases q with
    | slot j => exact absurd rfl (hslot j)
    | cpu j => exact congrArg Pc.hand (hpc fun hj => hq (hj ▸ rfl))
    | clearer k => exact congrArg hand (congrFun (apply_clearer e) k)
  · by_cases hk : k = i
    · subst hk
      rw [hpci]
      exact hok
    · rw [hpc hk]
      exact hm.slotOk (fun hi => hk (some.inj hi).symm) (h.slotOk k)

theorem Inv.clearer {k : Fin m} {c' : Clearer n} (h : Inv s) (hstep : (s.clearer k).step s = some (c', e)) :
    Inv ((s.apply e).setClearer k c') := by
  have hm := moves hstep
  have hnew : ((s.apply e).setClearer k c').clearer k = c' := update_self ..
  refine ⟨hm.kept h.kept (p := .clearer k) rfl rfl rfl (congrArg hand hnew) fun q hq hslot => ?_, fun i => ?_,
    h.tasks.of_same (apply_curr e) (apply_pc e) (apply_mm e) (apply_active e) (next_mmCid hstep)⟩
  · cases q with
    | slot j => exact absurd rfl (hslot j)
    | cpu j => exact congrArg Pc.hand (congrFun (apply_pc e) j)
    | clearer l =>
      have hl : l ≠ k := fun hl => hq (congrArg Place.clearer hl)
      refine congrArg hand ((update_of_ne hl ..).trans ?_)
      rw [apply_clearer]
  · show ((s.apply e).pc i).SlotOk ((s.apply e).slot i)
    rw [apply_pc]
    exact hm.slotOk (by simp) (h.slotOk i)

theorem Inv.acts {q : Option (Fin n ⊕ Fin m)} (h : Inv s) (ha : Acts s s' q) : Inv s' := by
  cases ha with
  | begins hb => exact h.begins hb
  | cpu i many pc' e hstep hs' => exact hs' ▸ h.cpu hstep
  | clearer k c' e hstep hs' => exact hs' ▸ h.clearer hstep

end KernelSched.MmCid
