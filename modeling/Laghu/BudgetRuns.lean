import Laghu.BudgetLifetimes

/-!
Whole programs over budgets and reservations. One step keeps the accounting
whatever reservations are held elsewhere, so it holds after every operation of
every program; with it, none of the checks that would stop the process fires
except the one on the number of children of a budget.
-/

namespace Laghu.MemoryBudgets

open Contract ObjectTable ParentChain MemoryBudget ObjectTable.Table Multiset Table

section Lifetimes

variable {bs bs' : Budgets} {R : Multiset MemoryReservation} {b : ℕ} {x : MemoryBudget}

variable (h : Accounted bs R)
include h

/-- No budget is a child of one that does not exist yet. -/
theorem parentOf_ne_size (c : ℕ) : parentOf bs c ≠ some bs.size := by
  intro hc
  obtain ⟨z, hz⟩ := h.rooted.live c _ hc
  exact Nat.lt_irrefl _ (lt_size_of_get? hz)

theorem createRoot_accounted (worker : WorkerId) (limit : Size) :
    Accounted (bs.push { worker := worker, limit := limit }) R := by
  refine ⟨h.toCharges.push rfl rfl (fun p hp => by cases hp), ?_⟩
  intro a y hy
  rw [childCount_push]
  rcases get?_push_cases hy with ⟨rfl, rfl⟩ | hy
  · rw [childCount_eq_zero (parentOf_ne_size h)]
    rfl
  · simpa using h.children_eq a y hy

/-- The parent counts its new child. -/
theorem push_child_accounted (hx : bs.get? b = some x) (hr : x.liveChildren ≠ sizeMax)
    (limit : Size) :
    Accounted ((bs.set b { x with liveChildren := x.liveChildren + 1 }).push
      { worker := x.worker, limit := limit, parent := some b }) R := by
  have hsize : (bs.set b { x with liveChildren := x.liveChildren + 1 }).size = bs.size :=
    size_set _ _ _
  refine ⟨?_, ?_⟩
  · apply (h.toCharges.set_liveChildren hx _).push rfl rfl
    intro p hp
    cases hp
    exact ⟨_, get?_set_self _ hx⟩
  intro a y hy
  rw [childCount_push, childCount_set_liveChildren hx]
  rcases get?_push_cases hy with ⟨ha, rfl⟩ | hy
  · rw [hsize] at ha
    have hb := lt_size_of_get? hx
    have hne : ¬ (some b = some a) := by
      intro heq
      have := Option.some.inj heq
      omega
    rw [ha, childCount_eq_zero (parentOf_ne_size h), ← ha, if_neg hne]
    rfl
  rcases get?_set_cases hy with ⟨rfl, rfl⟩ | ⟨hab, hy⟩
  · have hchildren := h.children_eq a x hx
    rw [if_pos rfl, ← hchildren]
    unfold sizeMax at hr
    bv_omega
  · have hne : ¬ (some b = some a) := fun heq => hab (Option.some.inj heq).symm
    rw [if_neg hne]
    exact h.children_eq a y hy

/-- Registering a child stops the program only when the counter is saturated. -/
theorem createChild_cases (hx : bs.get? b = some x) (limit : Size) :
    (x.liveChildren = sizeMax ∧ Heap.createChild bs b limit = none) ∨
      ∃ bs', Heap.createChild bs b limit = some bs' ∧ Accounted bs' R ∧
        ∀ lost, Keeps lost bs bs' := by
  by_cases hf : x.liveChildren = sizeMax
  · exact .inl ⟨hf, by simp [Heap.createChild, hx, registerChild, hf]⟩
  refine .inr ⟨_, by simp [Heap.createChild, hx, registerChild, hf],
    push_child_accounted h hx hf limit, fun lost => ?_⟩
  have hkeeps := Keeps.set lost { x with liveChildren := x.liveChildren + 1 } hx rfl
  exact hkeeps.trans (Keeps.push lost _ _)

theorem erase_root_accounted (hfree : ∀ r ∈ R, r.budget ≠ some b)
    (hleaf : ∀ c, parentOf bs c ≠ some b) (hl : parentOf bs b = none) :
    Accounted (bs.erase b) R := by
  refine ⟨h.toCharges.erase hfree hleaf, ?_⟩
  intro a y hy
  obtain ⟨_, hy⟩ := get?_erase_cases hy
  have hn := childCount_erase bs b a
  rw [hl, if_neg (by simp)] at hn
  rw [h.children_eq a y hy]
  omega

/-- The parent of a budget that goes away no longer counts it. -/
theorem erase_child_accounted (hfree : ∀ r ∈ R, r.budget ≠ some b)
    (hleaf : ∀ c, parentOf bs c ≠ some b) {p : ℕ} (hl : parentOf bs b = some p)
    (hx : bs.get? p = some x) :
    Accounted ((bs.set p { x with liveChildren := x.liveChildren - 1 }).erase b) R := by
  have hlinks : parentOf (bs.set p { x with liveChildren := x.liveChildren - 1 }) = parentOf bs :=
    link_set hx rfl
  refine ⟨(h.toCharges.set_liveChildren hx _).erase hfree (by rw [hlinks]; exact hleaf), ?_⟩
  intro a y hy
  obtain ⟨_, hy⟩ := get?_erase_cases hy
  have hn :=
    childCount_erase (bs.set p { x with liveChildren := x.liveChildren - 1 }) b a
  rw [hlinks, hl, childCount_set_liveChildren hx] at hn
  rcases get?_set_cases hy with ⟨rfl, rfl⟩ | ⟨hap, hy⟩
  · have hold := h.children_eq a x hx
    rw [if_pos rfl] at hn
    bv_omega
  have hne : ¬ (some p = some a) := fun heq => hap (Option.some.inj heq).symm
  rw [if_neg hne] at hn
  rw [h.children_eq a y hy]
  omega

/-- A budget whose children and reservations are gone passes the checks of its
destructor. -/
theorem destroyBudget_spec (hx : bs.get? b = some x) (hfree : ∀ r ∈ R, r.budget ≠ some b)
    (hchildless : ∀ c y, bs.get? c = some y → y.parent ≠ some b) :
    ∃ bs', Heap.destroyBudget bs b = some bs' ∧ Accounted bs' R ∧
      Keeps (fun a => a = b) bs bs' := by
  have hleaf : ∀ c, parentOf bs c ≠ some b := by
    intro c hc
    obtain ⟨y, hy, hp⟩ := parentOf_eq_some hc
    exact hchildless c y hy hp
  have hl : x.liveReservations = 0 := by
    have htotal := h.live_eq b x hx
    rw [Charges.totalAt_eq_zero hfree hleaf] at htotal
    exact BitVec.eq_of_toNat_eq htotal
  have hchildren : x.liveChildren = 0 := by
    have hn := h.children_eq b x hx
    rw [childCount_eq_zero hleaf] at hn
    exact BitVec.eq_of_toNat_eq hn
  cases hpar : x.parent with
  | none =>
    have hlink : parentOf bs b = none := by rw [parentOf, link_of_get? hx, hpar]
    exact ⟨bs.erase b, by simp [Heap.destroyBudget, hx, hl, hchildren, hpar],
      erase_root_accounted h hfree hleaf hlink, Keeps.erase bs b⟩
  | some p =>
    have hlink : parentOf bs b = some p := by rw [parentOf, link_of_get? hx, hpar]
    obtain ⟨owner, howner⟩ := h.rooted.live b p hlink
    have hguard : ¬ owner.liveChildren = 0#64 := by
      intro h0
      have hn := childCount_erase bs b p
      rw [if_pos hlink, ← h.children_eq p owner howner, h0] at hn
      cases hn
    have hkeeps := Keeps.set (fun a => a = b)
      { owner with liveChildren := owner.liveChildren - 1 } howner rfl
    refine ⟨_, ?_, erase_child_accounted h hfree hleaf hlink howner, hkeeps.trans (Keeps.erase _ b)⟩
    simp [Heap.destroyBudget, hx, hl, hchildren, hpar, howner, unregisterChild, hguard]

end Lifetimes

namespace Heap

/-- What one call does in the presence of reservations `others` that the call
does not reach: it returns, keeps the accounting, and changes nothing if it
reports an error. Only a saturated child counter stops the program. -/
def StepSpec (others : Multiset MemoryReservation) (h : Heap) (c : Call) : Prop :=
  (∃ o h', h.step c = some (o, h') ∧
      Accounted h'.budgets (h'.reservations.values + others) ∧
      Keeps (fun a => c = .destroyBudget a) h.budgets h'.budgets ∧
      ∀ e, o = .error e → h' = h) ∨
    ∃ p limit x, c = .createChild p limit ∧ h.budgets.get? p = some x ∧
      x.liveChildren = sizeMax ∧ h.step c = none

variable {others : Multiset MemoryReservation} {h : Heap}

variable {b id : ℕ} {c : Call}

theorem StepSpec.ok {t : Heap} (hstep : h.step c = some (.ok (), t))
    (hacc : Accounted t.budgets (t.reservations.values + others))
    (hkeeps : Keeps (fun a => c = .destroyBudget a) h.budgets t.budgets) : StepSpec others h c :=
  .inl ⟨.ok (), t, hstep, hacc, hkeeps, fun e he => by cases he⟩

section

variable (hA : Accounted h.budgets (h.reservations.values + others))

include hA

theorem StepSpec.error {e : Error} (hstep : h.step c = some (.error e, h)) : StepSpec others h c :=
  .inl ⟨.error e, h, hstep, hA, Keeps.refl _ _, fun _ _ => rfl⟩

theorem reserve_step {x : MemoryBudget} (hx : h.budgets.get? b = some x) (worker : WorkerId)
    (n : Size) : StepSpec others h (.reserve b worker n) := by
  rcases reserve_cases hA hx worker n with ⟨_, _, bs', hrun, hmap, hacc⟩ | ⟨_, e, hrun⟩
  · refine .ok (t := ⟨bs', h.reservations.push { budget := some b, bytes := n }⟩)
      (by simp [step, hrun, store]) ?_ (Keeps.of_mapped _ hmap (fun _ => rfl))
    simpa using hacc
  · exact .error hA (e := e) (by simp [step, hrun, store])

theorem reserveForAllocation_step {x : MemoryBudget} (hx : h.budgets.get? b = some x)
    (worker : WorkerId) (n : Size) (acquisition : Result Unit) :
    StepSpec others h (.reserveForAllocation b worker n acquisition) := by
  rcases reserveForAllocation_cases hA hx worker n (fun _ => (acquisition, ())) () with
    ⟨_, _, ⟨_, bs', _, hrun, hmap, hacc⟩ | ⟨e, _, _, hrun⟩⟩ | ⟨_, e, hrun⟩
  · refine .ok (t := ⟨bs', h.reservations.push { budget := some b, bytes := n }⟩)
      (by simp [step, hrun, store]) ?_ (Keeps.of_mapped _ hmap (fun _ => rfl))
    simpa using hacc
  iterate 2 · exact .error hA (e := e) (by simp [step, hrun, store])

variable {r : MemoryReservation}

section

variable (hr : h.reservations.get? id = some r)
include hr

/-- An operation on the reservation object `id` that leaves the rest of the
accounting alone in every context is a step of the heap. -/
theorem update_step {result : Option (Result Unit × MemoryReservation × Budgets)}
    (hstep : h.step c = result.bind (fun res => some (h.update id res)))
    (hop : ∀ R, Accounted h.budgets (r ::ₘ R) →
      (∃ r' bs', result = some (.ok (), r', bs') ∧ Accounted bs' (r' ::ₘ R) ∧
          ∀ lost, Keeps lost h.budgets bs') ∨
        ∃ e, result = some (.error e, r, h.budgets)) :
    StepSpec others h c := by
  obtain ⟨rest, hvals, hset, _⟩ := values_focus hr
  have hfocus : Accounted h.budgets (r ::ₘ (rest + others)) := by
    rwa [hvals, cons_add] at hA
  rcases hop _ hfocus with ⟨r', bs', hres, hacc, hkeeps⟩ | ⟨e, hres⟩
  · refine .ok (t := ⟨bs', h.reservations.set id r'⟩) (by simp [hstep, hres, update]) ?_ (hkeeps _)
    rw [hset, cons_add]
    exact hacc
  · have hsame : h.update id (.error e, r, h.budgets) = (.error e, h) := by
      simp [update, set_get?_self hr]
    exact .error hA (e := e) (by simp [hstep, hres, hsame])

theorem grow_step (worker : WorkerId) (n : Size) : StepSpec others h (.grow id worker n) := by
  apply update_step hA hr (by simp only [step, hr]; rfl)
  intro R hacc
  cases hb : r.budget with
  | none => exact .inr (resize_inactive hb h.budgets worker n).1
  | some b =>
    obtain ⟨x, hx⟩ := hacc.owned r (mem_cons_self _ _) b hb
    rcases grow_cases hacc hb hx worker n with ⟨_, _, _, bs', hrun, hmap, hnew⟩ | ⟨_, e, _, hrun⟩
    · exact .inl ⟨_, bs', hrun, hnew, fun lost => Keeps.of_mapped lost hmap (fun _ => rfl)⟩
    · exact .inr ⟨e, hrun⟩

theorem shrink_step (worker : WorkerId) (n : Size) : StepSpec others h (.shrink id worker n) := by
  apply update_step hA hr (by simp only [step, hr]; rfl)
  intro R hacc
  cases hb : r.budget with
  | none => exact .inr (resize_inactive hb h.budgets worker n).2
  | some b =>
    obtain ⟨x, hx⟩ := hacc.owned r (mem_cons_self _ _) b hb
    rcases shrink_cases hacc hb hx worker n with ⟨_, _, bs', hrun, hmap, hnew⟩ | ⟨_, e, hrun⟩
    · exact .inl ⟨_, bs', hrun, hnew, fun lost => Keeps.of_mapped lost hmap (fun _ => rfl)⟩
    · exact .inr ⟨e, hrun⟩

theorem release_step (worker : WorkerId) : StepSpec others h (.release id worker) := by
  apply update_step hA hr (by simp only [step, hr]; rfl)
  intro R hacc
  rcases release_cases hacc worker with ⟨r', bs', hrun, _, hnew, hkeeps⟩ | ⟨e, hrun⟩
  · exact .inl ⟨r', bs', hrun, hnew, hkeeps⟩
  · exact .inr ⟨e, hrun⟩

theorem moveConstruct_step : StepSpec others h (.moveConstruct id) := by
  obtain ⟨rest, hvals, hset, _⟩ := values_focus hr
  refine .ok (t := { h with reservations := (h.reservations.set id {}).push r })
    (by simp [step, hr]) ?_ (Keeps.refl _ _)
  rw [hvals, cons_add] at hA
  rw [values_push, hset, cons_add, cons_add, cons_swap]
  exact (Accounted.cons_inactive rfl).mpr hA

end

/-- Moving onto itself does nothing; otherwise the target gives up what it held
and the source becomes empty. -/
theorem moveAssign_step {target source : ℕ} {old moved : MemoryReservation}
    (hold : h.reservations.get? target = some old) (hm : h.reservations.get? source = some moved) :
    StepSpec others h (.moveAssign target source) := by
  by_cases hne : target = source
  · exact .ok (t := h) (by simp [step, moveAssign, hne]) hA (Keeps.refl _ _)
  obtain ⟨rest, hvals, hset⟩ := values_assign hne hold hm
  rw [hvals, cons_add] at hA
  obtain ⟨r', bs', hrun, _, hacc, hkeeps, _⟩ := releaseUnchecked_spec hA
  refine .ok (t := ⟨bs', (h.reservations.set target moved).set source {}⟩)
    (by simp [step, moveAssign, hne, hold, hm, hrun]) ?_ (hkeeps _)
  rw [hset, cons_add]
  exact (Accounted.cons_inactive rfl).mpr hacc

theorem destroyReservation_step (hr : h.reservations.get? id = some r) :
    StepSpec others h (.destroyReservation id) := by
  obtain ⟨rest, hvals, _, herase⟩ := values_focus hr
  rw [hvals, cons_add] at hA
  obtain ⟨r', bs', hrun, _, hacc, hkeeps, _⟩ := releaseUnchecked_spec hA
  refine .ok (t := ⟨bs', h.reservations.erase id⟩) (by simp [step, hr, hrun]) ?_ (hkeeps _)
  rwa [herase]

/-- Every call a program may make keeps the accounting. -/
theorem step_spec (c : Call)
    (hl : Legal others h c) : StepSpec others h c := by
  cases c with
  | createRoot worker limit =>
    refine .ok rfl (createRoot_accounted hA worker limit) ?_
    intro a x _ hx
    exact ⟨x, by rw [get?_push_lt _ _ (lt_size_of_get? hx), hx], rfl⟩
  | createChild parent limit =>
    obtain ⟨x, hx⟩ := hl
    rcases createChild_cases hA hx limit with ⟨hf, hrun⟩ | ⟨bs', hrun, hacc, hkeeps⟩
    · exact .inr ⟨parent, limit, x, rfl, hx, hf, by simp [step, hrun]⟩
    · exact .ok (t := { h with budgets := bs' }) (by simp [step, hrun]) hacc (hkeeps _)
  | destroyBudget budget =>
    obtain ⟨⟨x, hx⟩, hfree, hchildless⟩ := hl
    obtain ⟨bs', hrun, hacc, hkeeps⟩ := destroyBudget_spec hA hx hfree hchildless
    refine .ok (t := { h with budgets := bs' }) (by simp [step, hrun]) hacc ?_
    intro a y hlost hy
    exact hkeeps a y (fun hab => hlost (by rw [hab])) hy
  | reserve budget worker bytes =>
    obtain ⟨x, hx⟩ := hl
    exact reserve_step hA hx worker bytes
  | reserveForAllocation budget worker bytes acquisition =>
    obtain ⟨x, hx⟩ := hl
    exact reserveForAllocation_step hA hx worker bytes acquisition
  | grow id worker bytes =>
    obtain ⟨r, hr⟩ := hl
    exact grow_step hA hr worker bytes
  | shrink id worker bytes =>
    obtain ⟨r, hr⟩ := hl
    exact shrink_step hA hr worker bytes
  | release id worker =>
    obtain ⟨r, hr⟩ := hl
    exact release_step hA hr worker
  | defaultConstruct =>
    refine .ok rfl ?_ (Keeps.refl _ _)
    rw [values_push, cons_add]
    exact (Accounted.cons_inactive rfl).mpr hA
  | moveConstruct source =>
    obtain ⟨r, hr⟩ := hl
    exact moveConstruct_step hA hr
  | moveAssign target source =>
    obtain ⟨⟨old, hold⟩, moved, hm⟩ := hl
    exact moveAssign_step hA hold hm
  | destroyReservation id =>
    obtain ⟨r, hr⟩ := hl
    exact destroyReservation_step hA hr

end

theorem accounted_empty : Accounted empty 0 := by
  have hn : ∀ a, (empty : Budgets).get? a = none := by
    intro a
    simp [empty, get?]
  refine ⟨⟨⟨?_, ?_⟩, ?_, ?_, ?_, ?_⟩, ?_⟩ <;> simp [link, hn]

/-- The accounting holds in every program state. -/
theorem reachable_accounted (hr : h.Reachable) : Accounted h.budgets h.reservations.values := by
  apply Runs.Reachable.invariant hr
  · intro s hs
    subst hs
    exact accounted_empty
  intro s c o t hs hl hstep
  have hs' : Accounted s.budgets (s.reservations.values + 0) := by simpa using hs
  change s.step c = some (o, t) at hstep
  rcases step_spec hs' c hl with ⟨o', h', hrun, hacc, _⟩ | ⟨_, _, _, _, _, _, hn⟩
  · rw [hrun] at hstep
    cases hstep
    simpa using hacc
  · rw [hn] at hstep
    cases hstep

theorem reachable_step_spec (hr : h.Reachable) {c : Call} (hl : Legal 0 h c) : StepSpec 0 h c :=
  step_spec (by simpa using reachable_accounted hr) c hl

def soleWorker : WorkerId := ⟨1#64, by decide⟩

/-- A child of 80 bytes below a root of 100, with 40 bytes reserved on it. -/
def nestedHeap : Heap where
  budgets := ⟨[
    some { worker := soleWorker, limit := 100#64, charged := 40#64, liveReservations := 1#64,
           liveChildren := 1#64 },
    some { worker := soleWorker, limit := 80#64, charged := 40#64, liveReservations := 1#64,
           parent := some 0 }]⟩
  reservations := ⟨[some { budget := some 1, bytes := 40#64 }]⟩

theorem nestedHeap_reachable : nestedHeap.Reachable := by
  refine ⟨{}, [(.createRoot soleWorker 100#64, .ok ()), (.createChild 0 80#64, .ok ()),
    (.reserve 1 soleWorker 40#64, .ok ())], rfl, ?_⟩
  exact .cons trivial rfl (.cons ⟨_, rfl⟩ rfl (.cons ⟨_, rfl⟩ rfl (.refl _)))

open Classical in
/-- In every program state each budget has charged exactly the live
reservations below it and stays within its limit, and no legal call stops the
program except one that creates a child too many. -/
theorem charges_are_sums (hr : h.Reachable) : (∀ a x, h.budgets.get? a = some x → x.charged.toNat =
        ((h.reservations.values.filter (ChargedTo (parentOf h.budgets) a)).map
          (fun r => r.bytes.toNat)).sum ∧
      x.liveReservations.toNat =
        (h.reservations.values.filter (ChargedTo (parentOf h.budgets) a)).card ∧
      x.charged.toNat ≤ x.limit.toNat) ∧
    ∀ c, Legal 0 h c → h.step c = none →
      ∃ p limit x, c = .createChild p limit ∧ h.budgets.get? p = some x ∧
        x.liveChildren = sizeMax := by
  have hacc := reachable_accounted hr
  constructor
  · intro a x hx
    refine ⟨hacc.charged_eq a x hx, ?_, hacc.charged_le a x hx⟩
    rw [hacc.live_eq a x hx, totalAt, Multiset.map_const', Multiset.sum_replicate]
    exact Nat.mul_one _
  intro c hlegal hnone
  rcases reachable_step_spec hr hlegal with ⟨o, h', hrun, _⟩ | ⟨p, limit, x, hc, hx, hfull, _⟩
  · rw [hrun] at hnone
    cases hnone
  · exact ⟨p, limit, x, hc, hx, hfull⟩

open Classical in
theorem charges_are_sums_nestedHeap : (40#64).toNat =
      ((nestedHeap.reservations.values.filter (ChargedTo (parentOf nestedHeap.budgets) 0)).map
        (fun r => r.bytes.toNat)).sum :=
  ((charges_are_sums nestedHeap_reachable).1 0 _ rfl).1

/-- Admission is exact along the chain of budgets, growth is admitted under the
same condition, and a call that reports an error has changed nothing. -/
theorem admission_exact (hr : h.Reachable) : (∀ b x n, h.budgets.get? b = some x →
      ((∃ h', h.step (.reserve b x.worker n) = some (.ok (), h')) ↔ Room h.budgets b n)) ∧
    (∀ id r b x n, h.reservations.get? id = some r → r.budget = some b → h.budgets.get? b = some x →
      ((∃ h', h.step (.grow id x.worker n) = some (.ok (), h')) ↔ Room h.budgets b n) ∧
      ∀ worker h', h.step (.grow id worker n) ≠ some (.error reservationSizeOverflow, h')) ∧
    ∀ c e h', Legal 0 h c → h.step c = some (.error e, h') → h' = h := by
  have hacc := reachable_accounted hr
  refine ⟨?_, ?_, ?_⟩
  · intro b x n hx
    rcases reserve_cases hacc hx x.worker n with ⟨_, hroom, bs', hrun, _⟩ | ⟨hno, e, hrun⟩
    · simp [step, hrun, store, hroom]
    · have hroom : ¬ Room h.budgets b n := fun hroom => hno ⟨rfl, hroom⟩
      simp [step, hrun, store, hroom]
  · intro id r b x n hid hb hx
    obtain ⟨rest, hvalues, _⟩ := values_focus hid
    rw [hvalues] at hacc
    constructor
    · rcases grow_cases hacc hb hx x.worker n with
        ⟨_, hroom, _, bs', hrun, _⟩ | ⟨hno, e, _, hrun⟩
      · simp [step, hid, hrun, update, hroom]
      · have hroom : ¬ Room h.budgets b n := fun hroom => hno ⟨rfl, hroom⟩
        simp [step, hid, hrun, update, hroom]
    intro worker h' hstep
    rcases grow_cases hacc hb hx worker n with ⟨_, _, _, bs', hrun, _⟩ | ⟨_, e, hne, hrun⟩
    · simp [step, hid, hrun, update] at hstep
    simp only [step, hid, hrun, update, Option.bind_eq_bind, Option.bind_some,
      Option.pure_def, Option.some.injEq, Prod.mk.injEq, Except.error.injEq] at hstep
    exact hne hstep.1
  · intro c e h' hlegal hstep
    rcases reachable_step_spec hr hlegal with ⟨o, t, hrun, _, _, herror⟩ | ⟨_, _, _, _, _, _, hnone⟩
    · rw [hrun] at hstep
      cases hstep
      exact herror e rfl
    · rw [hnone] at hstep
      cases hstep

theorem admission_exact_nestedHeap :
    (∃ h', nestedHeap.step (.reserve 1 soleWorker 40#64) = some (.ok (), h')) ↔
      Room nestedHeap.budgets 1 40#64 :=
  (admission_exact nestedHeap_reachable).1 1 _ 40#64 rfl

/-- The counters tell the owner exactly what the callers owe before a budget may go: no
reservation on it and no child. Then its destructor returns, and otherwise it stops the
program. -/
theorem destruction_exact (hr : h.Reachable) {x : MemoryBudget} (hx : h.budgets.get? b = some x) :
    (x.readyForDestruction x.worker = .ok () ↔ Legal 0 h (.destroyBudget b)) ∧
      ((∃ h', h.step (.destroyBudget b) = some (.ok (), h')) ↔ Legal 0 h (.destroyBudget b)) := by
  have hacc := reachable_accounted hr
  have hready : x.readyForDestruction x.worker = .ok () ↔
      ¬ (x.liveReservations ≠ 0 ∨ x.liveChildren ≠ 0) := by
    rcases requireWorker_cases x x.worker with ⟨_, hok⟩ | ⟨hw, _⟩
    · simp [readyForDestruction, hok]
    · exact absurd rfl hw
  have hreturns : Legal 0 h (.destroyBudget b) →
      ∃ h', h.step (.destroyBudget b) = some (.ok (), h') := by
    rintro ⟨_, hfree, hchildless⟩
    obtain ⟨bs', hrun, _⟩ := destroyBudget_spec hacc hx (by simpa using hfree) hchildless
    exact ⟨{ h with budgets := bs' }, by simp [step, hrun]⟩
  have hzero : (∃ h', h.step (.destroyBudget b) = some (.ok (), h')) →
      ¬ (x.liveReservations ≠ 0 ∨ x.liveChildren ≠ 0) := by
    rintro ⟨h', hstep⟩ hbusy
    have hstops : destroyBudget h.budgets b = none := by
      rw [destroyBudget, hx]
      exact if_pos hbusy
    simp [step, hstops] at hstep
  have hlegal : ¬ (x.liveReservations ≠ 0 ∨ x.liveChildren ≠ 0) →
      Legal 0 h (.destroyBudget b) := by
    rw [not_or, not_not, not_not]
    rintro ⟨hlive, hchildren⟩
    refine ⟨⟨x, hx⟩, fun r hmem hb => ?_, fun c y hy hparent => ?_⟩
    · obtain ⟨rest, hrest⟩ := exists_cons_of_mem (by simpa using hmem)
      have hshare := ((hrest ▸ hacc).share_le hb (onChain_refl _ b) hx).2
      rw [hlive] at hshare
      exact absurd hshare (by decide)
    · have hchild : parentOf h.budgets c = some b := by rw [parentOf, link_of_get? hy, hparent]
      have hpos : 0 < childCount h.budgets b :=
        Finset.card_pos.mpr
          ⟨c, Finset.mem_filter.mpr ⟨Finset.mem_range.mpr (lt_size_of_get? hy), hchild⟩⟩
      rw [← hacc.children_eq b x hx, hchildren] at hpos
      exact absurd hpos (by decide)
  exact ⟨⟨fun h => hlegal (hready.mp h), fun h => hready.mpr (hzero (hreturns h))⟩,
    ⟨fun h => hlegal (hzero h), hreturns⟩⟩

theorem destruction_exact_nestedHeap :
    (∃ h', nestedHeap.step (.destroyBudget 0) = some (.ok (), h')) ↔
      Legal 0 nestedHeap (.destroyBudget 0) :=
  (destruction_exact nestedHeap_reachable rfl).2

end Heap

end Laghu.MemoryBudgets
