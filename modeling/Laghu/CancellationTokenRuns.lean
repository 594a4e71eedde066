import Laghu.CancellationRuns
import Laghu.CancellationTokens

/-!
What tokens report while the states of their chains change. A token that was
refused once is blocked by a value that nobody can take back, so a later call
finds that value or one that blocks it sooner.
-/

namespace Laghu.Cancellation

open Contract AtomicPrograms Runs List Program

namespace CancellationToken

variable {token : CancellationToken} {values : States} {acts : List (Act Answer)}
  {o own : CancellationOutcome}

/-- What a token reports when nothing changes: its own value, else that of the
nearest cancelled ancestor, else that it is pending. -/
def observed (token : CancellationToken) (values : States) : CancellationOutcome :=
  if (values token.own).outcome.isTerminal then (values token.own).outcome
  else match token.ancestors.find? (fun state => (values state).outcome.isCancelled) with
    | some state => (values state).outcome
    | none => ⟨.pending, .none⟩

/-- Some value keeps the token from being active. -/
def Blocked (token : CancellationToken) (values : States) : Prop :=
  (values token.own).outcome.isTerminal = true ∨
    ∃ state ∈ token.ancestors, (values state).outcome.isCancelled = true

theorem child_eq_ok {childState : ℕ} {t : CancellationToken} :
    token.child childState = .ok t ↔ childState ∉ token.states ∧ token.states.length ≤ 8 ∧
      t = { own := childState, ancestors := token.states } := by
  unfold child maximumParentDepth
  by_cases hcycle : childState ∈ token.states
  · simp [hcycle]
  by_cases hdeep : token.states.length > 8
  · have : ¬ token.states.length ≤ 8 := by omega
    simp [hcycle, hdeep, this]
  have hr : token.states.length ≤ 8 := by omega
  simp only [any_beq', elem_eq_mem, decide_eq_true_eq, if_neg hcycle, if_neg hdeep, Except.ok.injEq]
  constructor
  · intro ht
    exact ⟨hcycle, hr, ht.symm⟩
  · intro ht
    exact ht.2.2.symm

theorem child_error_iff {childState : ℕ} : (∃ e, token.child childState = .error e) ↔
      childState ∈ token.states ∨ 8 < token.states.length := by
  cases hchild : token.child childState with
  | ok t =>
    obtain ⟨hfresh, hr, _⟩ := child_eq_ok.mp hchild
    have : ¬ 8 < token.states.length := by omega
    simp [hfresh, this]
  | error e =>
    have hfails : ¬ (childState ∉ token.states ∧ token.states.length ≤ 8) := by
      rintro ⟨hfresh, hr⟩
      rw [child_eq_ok.mpr ⟨hfresh, hr, rfl⟩] at hchild
      cases hchild
    have hor : childState ∈ token.states ∨ 8 < token.states.length := by
      by_cases hmem : childState ∈ token.states
      · exact .inl hmem
      · exact .inr (Nat.lt_of_not_le fun hr => hfails ⟨hmem, hr⟩)
    simp [hor]

/-- A chain never repeats a state and has at most eight ancestors. -/
theorem Built.chain (h : Built token) : token.states.Nodup ∧ token.states.length ≤ 9 := by
  induction h with
  | token source =>
    exact ⟨by simp [CancellationSource.token, states], by simp [CancellationSource.token, states]⟩
  | child _ hcre ih =>
    obtain ⟨hfresh, hr, rfl⟩ := child_eq_ok.mp hcre
    exact ⟨nodup_cons.mpr ⟨hfresh, ih.1⟩, by simp only [states, length_cons] at *; omega⟩

/-- Every load along the way saw the value `values` has. -/
def Reads (values : States) (acts : List (Act Answer)) : Prop :=
  ∀ state (stored : StoredTerminal), ⟨.load state, stored⟩ ∈ acts → stored = values state

theorem inherited_cons {state : ℕ} {rest : List ℕ}
    (h : Path (inherited own (state :: rest)) acts (.done o)) :
    ∃ (stored : StoredTerminal) (later : List (Act Answer)), acts = ⟨.load state, stored⟩ :: later ∧
      ((stored.outcome.isCancelled = true ∧ o = stored.outcome) ∨
        (stored.outcome.isCancelled = false ∧ Path (inherited own rest) later (.done o))) := by
  obtain ⟨seen, xs, ys, rfl, hxs, hys⟩ := path_bind_done h
  obtain ⟨stored, rfl, rfl⟩ := outcome_path hxs
  refine ⟨stored, ys, rfl, ?_⟩
  split at hys
  · rename_i hcanc
    cases (path_done.mp hys).2
    exact .inl ⟨hcanc, rfl⟩
  · rename_i hcanc
    exact .inr ⟨Bool.eq_false_iff.mpr hcanc, hys⟩

theorem outcome_cases (h : Path token.outcome acts (.done o)) :
    ∃ (stored : StoredTerminal) (later : List (Act Answer)),
      acts = ⟨.load token.own, stored⟩ :: later ∧
      ((stored.outcome.isTerminal = true ∧ o = stored.outcome) ∨ (stored = .pending ∧
          Path (inherited ⟨.pending, .none⟩ token.ancestors) later (.done o))) := by
  obtain ⟨seen, xs, ys, rfl, hxs, hys⟩ := path_bind_done h
  obtain ⟨stored, rfl, rfl⟩ := outcome_path hxs
  refine ⟨stored, ys, rfl, ?_⟩
  split at hys
  · rename_i hterm
    cases (path_done.mp hys).2
    exact .inl ⟨hterm, rfl⟩
  rename_i hterm
  have hpend : stored = .pending := by
    by_contra hne
    exact hterm (outcome_isTerminal.mpr hne)
  subst hpend
  exact .inr ⟨rfl, hys⟩

theorem inherited_observed {ancestors : List ℕ}
    (h : Path (inherited own ancestors) acts (.done o)) (hreads : Reads values acts) :
    o = match ancestors.find? (fun state => (values state).outcome.isCancelled) with
      | some state => (values state).outcome
      | none => own := by
  induction ancestors generalizing acts with
  | nil =>
    cases (path_done.mp h).2
    rfl
  | cons state rest ih =>
    obtain ⟨stored, later, rfl, hcases⟩ := inherited_cons h
    have hstored : stored = values state := hreads state stored mem_cons_self
    rw [hstored] at hcases
    rcases hcases with ⟨hcanc, rfl⟩ | ⟨hgoes, hlater⟩
    · simp only [find?_cons, hcanc]
    · simp only [find?_cons, hgoes]
      exact ih hlater fun s stored hmem => hreads s stored (mem_cons_of_mem _ hmem)

theorem outcome_observed (h : Path token.outcome acts (.done o)) (hreads : Reads values acts) :
    o = token.observed values := by
  obtain ⟨stored, later, rfl, hcases⟩ := outcome_cases h
  have hstored : stored = values token.own := hreads token.own stored mem_cons_self
  unfold observed
  rcases hcases with ⟨hterm, rfl⟩ | ⟨hpend, hlater⟩
  · rw [← hstored, if_pos hterm]
  have hopen : ¬ (values token.own).outcome.isTerminal = true := by
    rw [← hstored, hpend]
    decide
  rw [if_neg hopen]
  exact inherited_observed hlater fun s stored hmem =>
    hreads s stored (mem_cons_of_mem _ hmem)

variable {stored : StoredTerminal}

theorem isCancelled_ne_pending (h : stored.outcome.isCancelled = true) : stored ≠ .pending := by
  rintro rfl
  cases h

theorem isCancelled_isTerminal (h : stored.outcome.isCancelled = true) :
    stored.outcome.isTerminal = true :=
  outcome_isTerminal.mpr (isCancelled_ne_pending h)

section Blocking

variable {ancestors : List ℕ}

theorem inherited_blocks (h : Path (inherited ⟨.pending, .none⟩ ancestors) acts (.done o))
    (ho : o.isTerminal = true)
    (hfinal : ∀ state (stored : StoredTerminal), ⟨.load state, stored⟩ ∈ acts →
      stored ≠ .pending → values state = stored) :
    ∃ state ∈ ancestors, (values state).outcome.isCancelled = true := by
  induction ancestors generalizing acts with
  | nil =>
    cases (path_done.mp h).2
    cases ho
  | cons state rest ih =>
    obtain ⟨stored, later, rfl, ⟨hcanc, rfl⟩ | ⟨_, hlater⟩⟩ := inherited_cons h
    · refine ⟨state, mem_cons_self, ?_⟩
      rw [hfinal state stored mem_cons_self (isCancelled_ne_pending hcanc)]
      exact hcanc
    obtain ⟨s, hs, hcanc⟩ :=
      ih hlater fun s stored hmem => hfinal s stored (mem_cons_of_mem _ hmem)
    exact ⟨s, mem_cons_of_mem _ hs, hcanc⟩

/-- Whoever sees a terminal outcome has seen a value that blocks the token. -/
theorem outcome_blocks (h : Path token.outcome acts (.done o)) (ho : o.isTerminal = true)
    (hfinal : ∀ state (stored : StoredTerminal), ⟨.load state, stored⟩ ∈ acts →
      stored ≠ .pending → values state = stored) : token.Blocked values := by
  obtain ⟨stored, later, rfl, ⟨hterm, rfl⟩ | ⟨_, hlater⟩⟩ := outcome_cases h
  · left
    rw [hfinal _ stored mem_cons_self (outcome_isTerminal.mp hterm)]
    exact hterm
  right
  exact inherited_blocks hlater ho fun s stored hmem =>
    hfinal s stored (mem_cons_of_mem _ hmem)

theorem inherited_blocked (h : Path (inherited own ancestors) acts (.done o)) {state : ℕ}
    (hst : state ∈ ancestors) (hcanc : (values state).outcome.isCancelled = true)
    (hreads : ∀ s (stored : StoredTerminal), ⟨.load s, stored⟩ ∈ acts →
      values s ≠ .pending → stored = values s) : o.isTerminal = true := by
  induction ancestors generalizing acts with
  | nil => cases hst
  | cons first rest ih =>
    obtain ⟨stored, later, rfl, ⟨hseen, rfl⟩ | ⟨hgoes, hlater⟩⟩ := inherited_cons h
    · exact isCancelled_isTerminal hseen
    rcases mem_cons.mp hst with rfl | hr
    · rw [hreads state stored mem_cons_self (isCancelled_ne_pending hcanc), hcanc] at hgoes
      cases hgoes
    · exact ih hlater hr fun s stored hmem => hreads s stored (mem_cons_of_mem _ hmem)

/-- A blocked token reports a terminal outcome, though maybe of another state. -/
theorem blocked_outcome (h : Path token.outcome acts (.done o)) (hblocked : token.Blocked values)
    (hreads : ∀ state (stored : StoredTerminal), ⟨.load state, stored⟩ ∈ acts →
      values state ≠ .pending → stored = values state) : o.isTerminal = true := by
  obtain ⟨stored, later, rfl, ⟨hterm, rfl⟩ | ⟨hpend, hlater⟩⟩ := outcome_cases h
  · exact hterm
  rcases hblocked with hown | ⟨state, hst, hcanc⟩
  · have hne := outcome_isTerminal.mp hown
    rw [← hreads _ stored mem_cons_self hne] at hne
    exact absurd hpend hne
  · exact inherited_blocked hlater hst hcanc fun s stored hmem =>
      hreads s stored (mem_cons_of_mem _ hmem)

end Blocking

theorem inherited_depthLe (own : CancellationOutcome) (ancestors : List ℕ) :
    (inherited own ancestors).DepthLe ancestors.length := by
  induction ancestors with
  | nil => exact depthLe_done _
  | cons state rest ih =>
    have hbind : (inherited own (state :: rest)).DepthLe (1 + rest.length) := by
      apply depthLe_bind (outcome_depthLe state)
      intro seen
      split
      · exact (depthLe_done _).mono (Nat.zero_le _)
      · exact ih
    exact hbind.mono (by rw [length_cons]; omega)

theorem outcome_depthLe_states (token : CancellationToken) :
    token.outcome.DepthLe token.states.length := by
  have hbind : token.outcome.DepthLe (1 + token.ancestors.length) := by
    apply depthLe_bind (outcome_depthLe token.own)
    intro seen
    split
    · exact (depthLe_done _).mono (Nat.zero_le _)
    · exact inherited_depthLe _ _
  exact hbind.mono (by simp only [states, length_cons]; omega)

end CancellationToken

theorem requireActive_eq_ok {o : CancellationOutcome} :
    o.requireActive = .ok () ↔ o.isTerminal ≠ true := by
  obtain ⟨terminal, cause⟩ := o
  cases terminal <;> simp [CancellationOutcome.requireActive, CancellationOutcome.isTerminal]

/-- A call asks whether the token is active. -/
def TokenCall.Checks (token : CancellationToken) : TokenCall → Prop
  | .requireActive t => t = token
  | .requireActiveBefore t _ => t = token
  | .requireActiveBy t _ _ => t = token
  | .source _ => False

variable {acts : List (Act Answer)}

/-- A call that fails when its first check fails has passed it when it succeeds. -/
theorem path_first_ok {p : Program Answer (Result Unit)}
    {f : Result Unit → Program Answer (Result Unit)} (h : Path (p >>= f) acts (.done (.ok ())))
    (herror : ∀ e, f (.error e) = .done (.error e)) :
    ∃ xs ys, acts = xs ++ ys ∧ Path p xs (.done (.ok ())) := by
  obtain ⟨result, xs, ys, hacts, hxs, hys⟩ := path_bind_done h
  cases result with
  | error e =>
    rw [herror e] at hys
    cases (path_done.mp hys).2
  | ok _ => exact ⟨xs, ys, hacts, hxs⟩

theorem checks_path {call : TokenCall} {token : CancellationToken} (hchecks : call.Checks token)
    (h : Path (tokenBody call) acts (.done (.active (.ok ())))) :
    ∃ earlier later o, acts = earlier ++ later ∧ Path token.outcome earlier (.done o) ∧
      o.isTerminal ≠ true := by
  have hf : ∀ xs, Path token.requireActive xs (.done (.ok ())) →
      ∃ o, Path token.outcome xs (.done o) ∧ o.isTerminal ≠ true := by
    intro xs hxs
    obtain ⟨o, ho, hpath⟩ := path_map_done hxs
    exact ⟨o, hpath, requireActive_eq_ok.mp ho.symm⟩
  obtain ⟨xs, ys, rfl, hxs⟩ :
      ∃ xs ys, acts = xs ++ ys ∧ Path token.requireActive xs (.done (.ok ())) := by
    cases call with
    | source call => exact hchecks.elim
    | requireActive t =>
      cases hchecks
      obtain ⟨result, hres, hpath⟩ := path_map_done h
      cases hres
      exact ⟨acts, [], (append_nil acts).symm, hpath⟩
    | requireActiveBefore t deadline | requireActiveBy t deadline operations =>
      cases hchecks
      obtain ⟨result, hres, hpath⟩ := path_map_done h
      cases hres
      exact path_first_ok hpath fun _ => rfl
  obtain ⟨o, hpath, ho⟩ := hf xs hxs
  exact ⟨xs, ys, o, rfl, hpath, ho⟩

theorem inherited_loads (own : CancellationOutcome) (ancestors : List ℕ) :
    (CancellationToken.inherited own ancestors).Only
      (fun a => ∃ state ∈ ancestors, a = .load state) := by
  induction ancestors with
  | nil => exact only_done _
  | cons state rest ih =>
    refine only_bind ?_ ?_
    · exact only_bind (only_perform ⟨state, mem_cons_self, rfl⟩)
        (fun _ => only_done _)
    intro seen
    split
    · exact only_done _
    · exact ih.mono fun _ ⟨s, hs, ha⟩ => ⟨s, mem_cons_of_mem _ hs, ha⟩

/-- A token looks at nothing but its chain. -/
theorem outcome_loads (token : CancellationToken) :
    token.outcome.Only (fun a => ∃ state ∈ token.states, a = .load state) := by
  refine only_bind ?_ ?_
  · exact only_bind (only_perform ⟨token.own, mem_cons_self, rfl⟩)
      (fun _ => only_done _)
  intro seen
  split
  · exact only_done _
  · exact (inherited_loads _ _).mono fun _ ⟨s, hs, ha⟩ => ⟨s, mem_cons_of_mem _ hs, ha⟩

section Runs

variable {u v w : Config Answer TokenResult TokenCall States}
  {trace before middle after : List (Move TokenCall Clocks × Event Answer TokenResult)}
  {token : CancellationToken} {id : ℕ} {clocks : Clocks} {result : TokenResult}

/-- An observation during which the chain does not change. -/
theorem quiet_outcome (h : Run tokenMachine.system tokenInitial
      (before ++ (.invoke (.source (.outcome token)), .started id) ::
        (middle ++ (.advance id clocks, .returned result) :: after)) w)
    (hmiddle : Run tokenMachine.system u
      ((.invoke (.source (.outcome token)), .started id) :: middle) v)
    (hquiet : ∀ state ∈ token.states, v.shared state = u.shared state) :
    result = .outcome (.ok (token.observed u.shared)) := by
  rw [← cons_append, ← append_assoc] at h
  obtain ⟨call, hcall, hpath⟩ := returned_path h
  have hstart : Invokes (before ++ (.invoke (.source (.outcome token)), .started id) :: middle) id
      (.source (.outcome token)) := mem_append_right _ mem_cons_self
  rw [call_unique h (mem_append_left _ hcall) (mem_append_left _ hstart)] at hpath
  obtain ⟨r, rfl, hbody⟩ := path_map_done hpath
  obtain ⟨o, rfl, hout⟩ := ok_path hbody
  obtain ⟨c, c', hc, _⟩ := h.split
  rw [CancellationToken.outcome_observed hout]
  intro state stored hmem
  obtain ⟨s, hs, hload⟩ := outcome_loads token _ _ hout _ hmem
  cases hload
  obtain ⟨e, he⟩ :=
    performs_after_start hc (mem_cons_self : Invokes _ id _) (performs_iff.mpr hmem)
  exact load_between hmiddle (hquiet state hs) he

/-- A token that was refused is blocked from then on. -/
theorem refused_blocked {e : Error} (h : Run tokenMachine.system tokenInitial
      (before ++ [(.advance id clocks, .returned (.active (.error e)))]) v)
    (hc : Invokes before id (.requireActive token)) : token.Blocked v.shared := by
  obtain ⟨call, hc', hpath⟩ := returned_path h
  rw [call_unique h (mem_append_left _ hc') (mem_append_left _ hc)] at hpath
  obtain ⟨r, hr, hact⟩ := path_map_done hpath
  cases hr
  obtain ⟨o, ho, hout⟩ := path_map_done hact
  have hterm : o.isTerminal = true := by
    by_contra hopen
    rw [requireActive_eq_ok.mpr hopen] at ho
    cases ho
  apply CancellationToken.outcome_blocks hout hterm
  intro state stored hmem hstored
  obtain ⟨e', he⟩ := performs_iff.mpr hmem
  obtain ⟨first, last, rfl⟩ := append_of_mem he
  rw [append_assoc] at h
  exact load_final h hstored

/-- A blocked token is refused by every call that starts later. -/
theorem blocked_refused {call : TokenCall}
    (h : Run tokenMachine.system tokenInitial (before ++ after) w)
    (ha : Run tokenMachine.system v after w) (hblocked : token.Blocked v.shared)
    (hc : Invokes after id call) (hchecks : call.Checks token) :
    ¬ Returns (before ++ after) id (.active (.ok ())) := by
  intro hret
  obtain ⟨past, future, htrace, hpath⟩ := returns_path h (mem_append_right _ hc) hret
  obtain ⟨earlier, later, o, hacts, hout, hopen⟩ := checks_path hchecks hpath
  apply hopen
  apply CancellationToken.blocked_outcome hout hblocked
  intro state stored hmem hv
  have hperforms : Performs (before ++ after) id ⟨.load state, stored⟩ := by
    rw [performs_iff, htrace, actsOf_append, hacts]
    exact mem_append_left _ (mem_append_left _ hmem)
  obtain ⟨e, he⟩ := performs_after_start h hc hperforms
  exact load_settled ha hv he

/-- Chains are short and free of cycles, a child is refused exactly when it would
break that, an undisturbed observation reports the nearest value that counts, and
a token that was refused once is never found active again. -/
theorem token_forest_sound (h : Run tokenMachine.system tokenInitial trace w)
    (hbuilt : token.Built) :
    (token.states.Nodup ∧ token.states.length ≤ 9) ∧
    (∀ childState, (∃ e, token.child childState = .error e) ↔
      childState ∈ token.states ∨ token.states.length = 9) ∧
    (∀ before id middle clocks result after u v,
      trace = before ++ (.invoke (.source (.outcome token)), .started id) ::
        (middle ++ (.advance id clocks, .returned result) :: after) →
      Run tokenMachine.system tokenInitial before u →
      Run tokenMachine.system u ((.invoke (.source (.outcome token)), .started id) :: middle) v →
      (∀ state ∈ token.states, v.shared state = u.shared state) →
        result = .outcome (.ok (token.observed u.shared))) ∧
    (∀ before id clocks e after,
      trace = before ++ (.advance id clocks, .returned (.active (.error e))) :: after →
      Invokes trace id (.requireActive token) →
        ∀ id' call, Invokes after id' call → call.Checks token →
          ¬ Returns trace id' (.active (.ok ()))) ∧
    ∀ id call, Invokes trace id call →
      call = .source (.outcome token) ∨ call = .requireActive token →
        token.states.length < moves id trace → ∃ result, Returns trace id result := by
  have hchain := hbuilt.chain
  refine ⟨hchain, ?_, ?_, ?_, ?_⟩
  · intro childState
    rw [CancellationToken.child_error_iff]
    have hlength : 8 < token.states.length ↔ token.states.length = 9 := by omega
    rw [hlength]
  · intro before id middle clocks result after u v htrace _ hmiddle hquiet
    subst htrace
    exact quiet_outcome h hmiddle hquiet
  · intro before id clocks e after htrace hcall id' call hcall' hchecks
    subst htrace
    obtain ⟨u, v, hu, hlegal, hstep, hv⟩ := h.split
    obtain ⟨call₀, hcall₀, _⟩ := returned_path h
    have hsame := call_unique h (mem_append_left _ hcall₀) hcall
    have hblocked := refused_blocked (hu.tail hlegal hstep) (hsame ▸ hcall₀)
    rw [append_cons] at h ⊢
    exact blocked_refused h hv hblocked hcall' hchecks
  intro id call hcall hkind hmoves
  have hdeep : (tokenMachine.body call).DepthLe token.states.length := by
    have hdepth := CancellationToken.outcome_depthLe_states token
    rcases hkind with rfl | rfl
    iterate 2 · exact depthLe_map _ (depthLe_map _ hdepth)
  obtain ⟨result, e, hmem⟩ := returned_of_moves h hcall hdeep hmoves
  exact ⟨result, e, hmem⟩

end Runs

/-- The token of state 1 below state 0. -/
def sampleToken : CancellationToken := { own := 1, ancestors := [0] }

theorem sampleToken_built : sampleToken.Built := by
  have hcre : (CancellationSource.token ⟨0⟩).child 1 = .ok sampleToken := rfl
  exact .child (.token ⟨0⟩) hcre

/-- The parent is cancelled, and the child token is refused. -/
def refusalBefore : List (Move TokenCall Clocks × Event Answer TokenResult) :=
  [(.invoke (.source (.cancel ⟨0⟩)), .started 0),
   (.advance 0 {}, .acted (.compareExchange 0 .cancelledExplicit) true),
   (.invoke (.requireActive sampleToken), .started 1),
   (.advance 1 {}, .acted (.load 1) StoredTerminal.pending),
   (.advance 1 {}, .acted (.load 0) StoredTerminal.cancelledExplicit)]

def refusal : Error := CancellationOutcome.cancellationError .explicitRequest

/-- Meanwhile the state of the child completes, and the token is asked again. -/
def refusalAfter : List (Move TokenCall Clocks × Event Answer TokenResult) :=
  [(.invoke (.source (.complete ⟨1⟩)), .started 2),
   (.advance 2 {}, .acted (.compareExchange 1 .completed) true),
   (.invoke (.requireActive sampleToken), .started 3)]

def refusalTrace : List (Move TokenCall Clocks × Event Answer TokenResult) :=
  refusalBefore ++ (.advance 1 {}, .returned (.active (.error refusal))) :: refusalAfter

theorem refusalTrace_run : ∃ w, Run tokenMachine.system tokenInitial refusalTrace w :=
  ⟨_, .cons trivial rfl <| .cons ⟨_, _, rfl, rfl⟩ rfl <| .cons trivial rfl <|
    .cons ⟨_, _, rfl, rfl⟩ rfl <| .cons ⟨_, _, rfl, rfl⟩ rfl <| .cons ⟨_, _, rfl, rfl⟩ rfl <|
    .cons trivial rfl <| .cons ⟨_, _, rfl, rfl⟩ rfl <| .cons trivial rfl <| .refl _⟩

theorem token_forest_sound_refusal :
    sampleToken.Built ∧ ¬ Returns refusalTrace 3 (.active (.ok ())) := by
  obtain ⟨w, hrun⟩ := refusalTrace_run
  obtain ⟨_, _, _, hrefused, _⟩ := token_forest_sound hrun sampleToken_built
  have hfirst : Invokes refusalTrace 1 (.requireActive sampleToken) :=
    mem_cons_of_mem _ (mem_cons_of_mem _ mem_cons_self)
  have hagain : Invokes refusalAfter 3 (.requireActive sampleToken) :=
    mem_cons_of_mem _ (mem_cons_of_mem _ mem_cons_self)
  exact ⟨sampleToken_built,
    hrefused refusalBefore 1 {} refusal refusalAfter rfl hfirst 3 _ hagain rfl⟩

end Laghu.Cancellation
