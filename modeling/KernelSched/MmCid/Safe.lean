import Mathlib.Data.Fintype.Sum
import KernelSched.MmCid.Slots
import KernelSched.Units

/-!
# Which ids are in use

A thread that clears the slot of a CPU sets the flag, reads `rq->curr` of the CPU, and unsets the slot if it finds there
no active task of the address space. When the CPU switches to such a task in between, `mm_cid_get` sees the flag and
does not use the id, so the slot is not as the thread left it. But the CPU may get the same id again and store it
without the flag, and a second thread may set the flag once more. The first thread then unsets the slot of a running
task and frees its id.

- `Alone` excludes just this: the flag is not set again with an id while another thread, that has read `rq->curr` for the
  same slot and id, is still to unset it.
- `Found` is what such a thread has learnt, and still holds when the slot has the flag.
-/

namespace KernelSched.MmCid

open Custody Run Function State Clearer

variable {n m : Nat}

/-! ## No second flag -/

def Steal.looked : Steal → Bool
  | .lazy => false
  | .look .curr => false
  | _ => true

def State.target (s : State n m) : Fin n ⊕ Fin m → Option (Fin n × Nat × Steal)
  | .inl cpu => (s.pc cpu).steal
  | .inr k => (s.clearer k).target

/-- The flag that the program sets, if it does, is not what another waits for. -/
def State.Alone (s : State n m) (q : Fin n ⊕ Fin m) : Prop :=
  ∀ a ∈ s.target q, a.2.2 = .lazy → s.slot a.1 = .valid a.2.1 →
    ∀ p, ∀ b ∈ s.target p, b.1 = a.1 → b.2.1 = a.2.1 → b.2.2.looked = false

def Op.Alone (op : Op n m) (s : State n m) : Prop := ∀ q ∈ op.actor, s.Alone q

instance (s : State n m) (q : Fin n ⊕ Fin m) : Decidable (s.Alone q) := by
  unfold State.Alone
  infer_instance

instance (op : Op n m) (s : State n m) : Decidable (op.Alone s) := by
  unfold Op.Alone
  infer_instance

/-! ## What has been found -/

/-- What a program that takes an id out of the slot of a CPU knows at each point, when the slot has the flag. -/
def Found (s : State n m) (j : Fin n) (c : Nat) : Steal → Prop
  | .lazy => True
  | .look .curr => True
  | .look (.active t) => s.Claims j c → s.curr j = t
  | .look (.mm t) => s.Claims j c → s.curr j = t
  | .unset => ¬ s.Claims j c

structure Safe (s : State n m) : Prop where
  used : ∀ {i c}, s.Claims i c → (s.slot i).cid = some c
  found : ∀ {q j c st}, s.target q = some (j, c, st) → s.slot j = .lazy c → Found s j c st

variable {s s' : State n m} {i j : Fin n} {c t : Nat} {q : Fin n ⊕ Fin m} {own : Option (Fin n)} {a b : Option Nat}
  {e : Effect n} {st : Steal}

theorem Found.imp (h : Found s j c st) (hclaims : s'.Claims j c → s.Claims j c ∧ s'.curr j = s.curr j) :
    Found s' j c st := by
  unfold Found at h ⊢
  split
  · trivial
  · trivial
  · exact fun hc => (hclaims hc).2.trans (h (hclaims hc).1)
  · exact fun hc => (hclaims hc).2.trans (h (hclaims hc).1)
  · exact fun hc => h (hclaims hc).1

theorem found_of_not_looked (h : st.looked = false) : Found s j c st := by
  unfold Steal.looked at h
  split at h
  · trivial
  · trivial
  · cases h

theorem Found.next {st' : Steal} (h : s.slot j = .lazy c → Found s j c st)
    (hnext : st.next s j c = (.more st', e)) (hv : (s.apply e).slot j = .lazy c) : Found s j c st' := by
  cases st with
  | lazy =>
    simp only [Steal.next] at hnext
    split at hnext <;> cases hnext
    trivial
  | unset =>
    simp only [Steal.next] at hnext
    split at hnext <;> cases hnext
  | look l =>
    cases l with
    | curr =>
      cases hnext
      exact fun _ => rfl
    | active t =>
      simp only [Steal.next, Look.next] at hnext
      by_cases hon : s.active t = true
      · simp only [hon, if_true] at hnext
        cases hnext
        exact h hv
      · simp only [hon] at hnext
        cases hnext
        intro hc
        exact hon (h hv hc ▸ hc.1)
    | mm t =>
      simp only [Steal.next, Look.next] at hnext
      by_cases hours : s.mm t = .ours
      · simp only [hours, decide_true] at hnext
        cases hnext
      · simp only [hours, decide_false] at hnext
        cases hnext
        intro hc
        exact hours (h hv hc ▸ hc.2.1)

/-! ## Steps -/

theorem Safe.begins (h : Safe s) (hb : Begins s s') : Safe s' := by
  refine ⟨fun {i c} hc => ?_, fun {q j c st} hq hv => ?_⟩
  · rw [hb.slot]
    exact h.used (hb.claims hc).1
  · rw [hb.slot] at hv
    have hold : s.target q = some (j, c, st) := by
      cases q with
      | inl k =>
        rcases hb.pc k with hk | ⟨-, hfresh⟩
        · exact (congrArg Pc.steal hk).symm.trans hq
        · exact (nomatch hfresh.steal.symm.trans hq)
      | inr k =>
        rcases hb.clearer k with hk | ⟨-, cpu, hk⟩
        · exact (congrArg Clearer.target hk).symm.trans hq
        · exact (nomatch (congrArg Clearer.target hk).symm.trans hq)
    exact (h.found hold hv).imp hb.claims

theorem Moves.used (hm : Moves s own (s.target q) a b e) (h : Safe s) (hc : s.Claims i c) :
    ((s.apply e).slot i).cid = some c := by
  have hi := h.used hc
  have hstore : ∀ {j v}, (i = j → v.cid = some c) → ((s.apply (.store j v)).slot i).cid = some c := by
    intro j v hv
    show (update s.slot j v i).cid = some c
    by_cases hij : i = j
    · subst hij
      rw [update_self]
      exact hv rfl
    · rwa [update_of_ne hij]
  cases hm with
  | quiet he => cases e <;> first | exact he.elim | exact hi
  | lazy hj hv =>
    refine hstore fun hij => ?_
    rw [hij, hv] at hi
    exact hi
  | won hj hv =>
    refine hstore fun hij => ?_
    subst hij
    rw [hv] at hi
    cases hi
    exact absurd hc (h.found hj hv)
  | unset hj hv hfree => exact hstore fun hij => absurd (hij ▸ hc) (hfree c)
  | write hj hv =>
    refine hstore fun hij => ?_
    rw [hij, hv] at hi
    cases hi
  | clear | set => exact hi

theorem Moves.flag {target : Option (Fin n × Nat × Steal)} (hm : Moves s own target a b e)
    (hv : (s.apply e).slot j = .lazy c) : s.slot j = .lazy c ∨ target = some (j, c, .lazy) ∧ s.slot j = .valid c := by
  have hstore : ∀ {k v}, (s.apply (.store k v)).slot j = .lazy c → s.slot j = .lazy c ∨ j = k ∧ v = .lazy c := by
    intro k v hv
    change update s.slot k v j = .lazy c at hv
    by_cases hjk : j = k
    · subst hjk
      rw [update_self] at hv
      exact .inr ⟨rfl, hv⟩
    · rw [update_of_ne hjk] at hv
      exact .inl hv
  cases hm with
  | quiet he => cases e <;> first | exact he.elim | exact .inl hv
  | lazy hk hk' =>
    rcases hstore hv with hv | ⟨rfl, heq⟩
    · exact .inl hv
    · cases heq
      exact .inr ⟨hk, hk'⟩
  | won | unset | write => exact .inl ((hstore hv).resolve_right fun hv => (nomatch hv.2))
  | clear | set => exact .inl hv

theorem Safe.step (h : Safe s) (halone : s.Alone q)
    (hm : Moves s own (s.target q) a b e) (hslot : s'.slot = (s.apply e).slot) (hcurr : s'.curr = s.curr)
    (hclaims : ∀ {j c}, s'.Claims j c → s.Claims j c ∨ s'.slot j = .valid c) (hother : ∀ p ≠ q, s'.target p = s.target p)
    (hself : ∀ {j c st'}, s'.target q = some (j, c, st') →
      st' = .lazy ∨ ∃ st, s.target q = some (j, c, st) ∧ st.next s j c = (.more st', e)) : Safe s' := by
  refine ⟨fun {i c} hc => ?_, fun {p j c st} hp hv => ?_⟩
  · rcases hclaims hc with hc | hv
    · rw [hslot]
      exact hm.used h hc
    · rw [hv]
      rfl
  · -- a task that has the flag in its slot had claimed the id before
    have hback : s'.Claims j c → s.Claims j c ∧ s'.curr j = s.curr j := fun hc =>
      ⟨(hclaims hc).resolve_right fun hvalid => (nomatch hv.symm.trans hvalid), congrFun hcurr j⟩
    rw [hslot] at hv
    by_cases hpq : p = q
    · subst hpq
      rcases hself hp with rfl | ⟨st, hst, hnext⟩
      · trivial
      · exact (Found.next (h.found hst) hnext hv).imp hback
    · rw [hother p hpq] at hp
      rcases hm.flag hv with hold | ⟨hq, hvalid⟩
      · exact (h.found hp hold).imp hback
      · exact found_of_not_looked (halone _ hq rfl hvalid p _ hp rfl rfl)

theorem claims_of_cpu {pc' : Pc n} {many : Bool} (h : Inv s)
    (hstep : (s.pc i).step s i many = some (pc', e)) (hc : ((s.apply e).goto i pc').Claims j c) :
    s.Claims j c ∨ (s.apply e).slot j = .valid c := by
  have hts := h.tasks.step hstep
  obtain ⟨hon, hours, hcid⟩ := hc
  change (s.apply e).active ((s.apply e).curr j) = true at hon
  change (s.apply e).mm ((s.apply e).curr j) = .ours at hours
  change (s.apply e).mmCid ((s.apply e).curr j) = some c ∨ (update (s.apply e).pc i pc' j).claim = some c at hcid
  rw [apply_curr, apply_active] at hon
  rw [apply_curr, apply_mm] at hours
  rw [apply_curr, apply_pc] at hcid
  by_cases hji : j = i
  · subst hji
    rw [update_self] at hcid
    rcases hcid with hcid | hclaim
    · rcases hts.cid (s.curr j) with hsame | ⟨-, hnone | ⟨-, hsame⟩⟩ | ⟨hprev, -⟩
      · exact .inl ⟨hon, hours, .inl (hsame.symm.trans hcid)⟩
      · exact (nomatch hnone.symm.trans hcid)
      · exact .inl ⟨hon, hours, .inr (hsame.symm.trans hcid)⟩
      · exact absurd rfl (h.tasks.prev hprev j)
    · exact .inr ((Pc.does (h.tasks.placed j) (h.slotOk j) hstep).claim hclaim)
  · rw [update_of_ne hji] at hcid
    refine .inl ⟨hon, hours, hcid.imp_left fun hcid => ?_⟩
    rcases hts.cid (s.curr j) with hsame | ⟨heq, -⟩ | ⟨hprev, -⟩
    · exact hsame.symm.trans hcid
    · exact absurd (h.tasks.inj heq) hji
    · exact absurd rfl (h.tasks.prev hprev j)

theorem Clearer.step_target {k k' : Clearer n} {st' : Steal} (hstep : k.step s = some (k', e))
    (hst : k'.target = some (j, c, st')) :
    st' = .lazy ∨ ∃ st, k.target = some (j, c, st) ∧ st.next s j c = (.more st', e) := by
  cases k <;> simp only [step] at hstep <;> repeat' split at hstep
  all_goals cases hstep <;> cases hst
  · exact .inl rfl
  · exact .inr ⟨_, rfl, by assumption⟩

theorem Safe.acts {o : Option (Fin n ⊕ Fin m)} (h : Safe s) (hinv : Inv s) (ha : Acts s s' o)
    (halone : ∀ q ∈ o, s.Alone q) :
    Safe s' := by
  cases ha with
  | begins hb => exact h.begins hb
  | cpu i many pc' e hstep hs' =>
    subst hs'
    obtain ⟨hm, -, -, hsteal⟩ := Pc.does (hinv.tasks.placed i) (hinv.slotOk i) hstep
    refine h.step (halone _ rfl) hm rfl (apply_curr e) (claims_of_cpu hinv hstep) (fun p hp => ?_) fun hst => ?_
    · cases p with
      | inl k =>
        have hk : k ≠ i := fun hk => hp (congrArg Sum.inl hk)
        exact congrArg Pc.steal ((update_of_ne hk ..).trans (congrFun (apply_pc e) k))
      | inr k => exact congrArg Clearer.target (congrFun (apply_clearer e) k)
    · have hnew : ((s.apply e).goto i pc').pc i = pc' := update_self ..
      exact hsteal ((congrArg Pc.steal hnew).symm.trans hst)
  | clearer k c' e hstep hs' =>
    subst hs'
    have hm : Moves s none (s.target (.inr k)) (s.clearer k).hand c'.hand e := moves hstep
    refine h.step (halone _ rfl) hm rfl (apply_curr e) (fun hc => .inl ?_) (fun p hp => ?_) fun hst => ?_
    · unfold State.Claims at hc ⊢
      change (s.apply e).active ((s.apply e).curr _) = true ∧ (s.apply e).mm ((s.apply e).curr _) = .ours ∧
        ((s.apply e).mmCid ((s.apply e).curr _) = some _ ∨ ((s.apply e).pc _).claim = some _) at hc
      rwa [apply_curr, apply_active, apply_mm, apply_pc, next_mmCid hstep] at hc
    · cases p with
      | inl i => exact congrArg Pc.steal (congrFun (apply_pc e) i)
      | inr l =>
        have hl : l ≠ k := fun hl => hp (congrArg Sum.inr hl)
        exact congrArg Clearer.target ((update_of_ne hl ..).trans (congrFun (apply_clearer e) l))
    · have hnew : ((s.apply e).setClearer k c').clearer k = c' := update_self ..
      exact Clearer.step_target hstep ((congrArg Clearer.target hnew).symm.trans hst)

/-! ## Runs -/

/-- The address space has just been made: no id has been handed out, and no call is going on. -/
structure Start (s : State n m) : Prop where
  slot : ∀ i, s.slot i = .unset
  mask : ∀ c, s.mask c = false
  mmCid : ∀ t, s.mmCid t = none
  pc : ∀ i, s.pc i = .idle
  clearer : ∀ k, s.clearer k = .idle
  curr : Function.Injective s.curr

/-- A CPU runs a task that is active in the address space and has the id. -/
def State.Uses (s : State n m) (cpu : Fin n) (cid : Nat) : Prop :=
  s.active (s.curr cpu) = true ∧ s.mm (s.curr cpu) = .ours ∧ s.mmCid (s.curr cpu) = some cid

instance : Decidable (s.Uses i c) := inferInstanceAs (Decidable (_ ∧ _))

theorem State.Uses.claims (h : s.Uses i c) : s.Claims i c := ⟨h.1, h.2.1, .inl h.2.2⟩

theorem Start.inv (h : Start s) : Inv s := by
  refine ⟨kept_empty (fun p => ?_) h.mask, fun i => ?_, fun heq => h.curr heq, fun {t} _ => h.mmCid t, fun {t c} ht => ?_,
    fun {i t} ht => ?_, fun i => ?_⟩
  · cases p with
    | slot i => exact congrArg Slot.cid (h.slot i)
    | cpu i => exact congrArg Pc.hand (h.pc i)
    | clearer k => exact congrArg hand (h.clearer k)
  · rw [h.pc]
    trivial
  · exact (nomatch (h.mmCid t).symm.trans ht)
  · rw [h.pc] at ht
    cases ht
  · rw [h.pc]
    exact fun _ => h.mmCid _

theorem Start.safe (h : Start s) : Safe s := by
  refine ⟨fun {i c} hc => ?_, fun {q j c st} _ hv => (nomatch (h.slot j).symm.trans hv)⟩
  exact absurd hc (not_claims_of_none (h.mmCid _) (by rw [h.pc]; rfl))

theorem inv_run {ops : List (Op n m)} (h : Inv s) (hrun : run Op.run ops s = some s') : Inv s' :=
  run_invariant (fun _ _ _ h hrun => h.acts (Op.acts h.tasks hrun)) h hrun

theorem safe_run {ops : List (Op n m)} (h : Inv s ∧ Safe s) (ha : Along Op.run Op.Alone ops s)
    (hrun : run Op.run ops s = some s') : Safe s' := by
  refine (along_invariant (I := fun s => Inv s ∧ Safe s) (fun op u u' h halone hrun => ?_) h ha hrun).2
  have hacts := Op.acts h.1.tasks hrun
  exact ⟨h.1.acts hacts, h.2.acts h.1 hacts halone⟩

/-- In every interleaving, an id in a slot has its bit set and is in one slot only. While no thread sets the flag that
another waits for, the id of a running task stays in the slot of its CPU, so no two CPUs use the same. -/
theorem cids_after_run {ops : List (Op n m)} (hstart : Start s) (hrun : run Op.run ops s = some s') :
    (∀ i c, (s'.slot i).cid = some c → s'.mask c = true ∧ ∀ j, (s'.slot j).cid = some c → j = i) ∧
      (Along Op.run Op.Alone ops s →
        (∀ i c, s'.Uses i c → (s'.slot i).cid = some c ∧ s'.mask c = true) ∧
          ∀ i j c, s'.Uses i c → s'.Uses j c → i = j) := by
  have hkept := (inv_run hstart.inv hrun).kept
  have hone : ∀ {i j c}, (s'.slot i).cid = some c → (s'.slot j).cid = some c → i = j := by
    intro i j c hi hj
    have hplace : (Place.slot i : Place n m) = .slot j := hkept.one hi hj
    cases hplace
    rfl
  have hbit : ∀ {i c}, (s'.slot i).cid = some c → s'.mask c = true := fun {i c} hi => hkept.mask.2 ⟨.slot i, hi⟩
  refine ⟨fun i c hi => ⟨hbit hi, fun j hj => hone hj hi⟩, fun ha => ?_⟩
  have hused : ∀ {i c}, s'.Uses i c → (s'.slot i).cid = some c := fun hi =>
    (safe_run ⟨hstart.inv, hstart.safe⟩ ha hrun).used hi.claims
  exact ⟨fun i c hi => ⟨hused hi, hbit (hused hi)⟩, fun i j c hi hj => hone (hused hi) (hused hj)⟩

/-- Two CPUs that idle, and two tasks, 2 and 3, of the address space -/
def twoIdle : State 2 2 where
  slot _ := .unset
  mask _ := false
  curr cpu := cpu
  pc _ := .idle
  clearer _ := .idle
  mm t := if t = 2 ∨ t = 3 then .ours else .none
  active t := t = 2 ∨ t = 3
  mmCid _ := none
  lastMmCid _ := none
  migrateFromCpu _ := none
  useCidLock := false
  cidLock := .free

theorem start_twoIdle : Start twoIdle :=
  ⟨fun _ => rfl, fun _ => rfl, fun _ => rfl, fun _ => rfl, fun _ => rfl, fun _ _ h => Fin.ext h⟩

/-- Task 2 runs on CPU 0 and leaves, a thread clears the slot, and both tasks run. -/
def runBoth : List (Op 2 2) :=
  .switchTo 0 2 :: List.replicate 8 (.step 0 true) ++ .switchTo 0 0 :: List.replicate 4 (.step 0 true) ++
    .remoteClear 0 0 :: List.replicate 6 (.clearStep 0) ++ .switchTo 0 2 :: List.replicate 8 (.step 0 true) ++
    .switchTo 1 3 :: List.replicate 9 (.step 1 true)

theorem cids_after_runBoth : ∃ s, run Op.run runBoth twoIdle = some s ∧ s.Uses 0 0 ∧ s.Uses 1 1 ∧
    (s.slot 0).cid = some 0 ∧ s.mask 0 = true ∧ ∀ j, (s.slot j).cid = some 0 → j = 0 := by
  have hs : ((run Op.run runBoth twoIdle).filter fun s => s.Uses 0 0 ∧ s.Uses 1 1).isSome = true := by decide
  obtain ⟨s, hrun, huses⟩ := run_of_isSome hs
  obtain ⟨hslots, hsafe⟩ := cids_after_run start_twoIdle hrun
  obtain ⟨hslot, hbit⟩ := (hsafe (by decide)).1 0 0 huses.1
  exact ⟨s, hrun, huses.1, huses.2, hslot, hbit, (hslots 0 0 hslot).2⟩

/-- CPU 0 has run task 2. A thread sets the flag of its slot and finds CPU 0 idle; task 2 comes back and gets the same id;
a second thread sets the flag and finds task 2; then the first one goes on. -/
def flagTwice : List (Op 2 2) :=
  .switchTo 0 2 :: List.replicate 8 (.step 0 true) ++ .switchTo 0 0 :: List.replicate 4 (.step 0 true) ++
    .remoteClear 0 0 :: List.replicate 4 (.clearStep 0) ++ .switchTo 0 2 :: List.replicate 10 (.step 0 true) ++
    .remoteClear 1 0 :: List.replicate 5 (.clearStep 1) ++ List.replicate 2 (.clearStep 0)

/-- The id of a running task is freed, and CPU 1 gets it. -/
theorem same_cid_after_flagTwice : Start twoIdle ∧
    (∃ s, run Op.run flagTwice twoIdle = some s ∧ s.Uses 0 0 ∧ s.mask 0 = false) ∧
      ∃ s, run Op.run (flagTwice ++ .switchTo 1 3 :: List.replicate 8 (.step 1 true)) twoIdle = some s ∧
        s.Uses 0 0 ∧ s.Uses 1 0 := by
  exact ⟨start_twoIdle, run_of_isSome (by decide), run_of_isSome (by decide)⟩

/-- In these interleavings too no id is lost: each that is not free is in one slot, or with one CPU or thread. -/
theorem cid_held_once {ops : List (Op n m)} (hstart : Start s) (hrun : run Op.run ops s = some s') (c : Nat) :
    s'.mask c = true ↔ ∃! p, s'.held p = some c := by
  obtain ⟨hone, hmask⟩ := (inv_run hstart.inv hrun).kept
  rw [hmask]
  exact ⟨fun ⟨p, hp⟩ => ⟨p, hp, fun _ hq => hone hq hp⟩, fun ⟨p, hp, _⟩ => ⟨p, hp⟩⟩

theorem cid_held_once_twoIdle : ∃ s, run Op.run runBoth twoIdle = some s ∧ ∃! p, s.held p = some 1 := by
  have hs : ((run Op.run runBoth twoIdle).filter fun s => s.mask 1 = true).isSome = true := by decide
  obtain ⟨s, hrun, hbit⟩ := run_of_isSome hs
  exact ⟨s, hrun, (cid_held_once start_twoIdle hrun 1).1 hbit⟩

end KernelSched.MmCid
