import Laghu.DnsResolverInvariants

/-!
What each call of a resolver does to its queries and tokens.
-/

namespace Laghu.DnsResolvers

open Contract List Option

section Tokens

variable {next : BitVec 64}

theorem issued_succ {t : BitVec 64} (hn : next ≠ 0#64) (h : Issued next t) :
    Issued (next + 1#64) t := by
  refine ⟨h.1, ?_⟩
  have hlt := h.2.resolve_left hn
  by_cases h0 : next + 1#64 = 0#64
  · exact .inl h0
  · exact .inr (by bv_omega)

theorem issued_self (hn : next ≠ 0#64) : Issued (next + 1#64) next := by
  refine ⟨hn, ?_⟩
  by_cases h0 : next + 1#64 = 0#64
  · exact .inl h0
  · exact .inr (by bv_omega)

theorem not_issued_self (hn : next ≠ 0#64) : ¬ Issued next next :=
  fun h => BitVec.lt_irrefl _ (h.2.resolve_left hn)

end Tokens

theorem getElem?_of_findIdx? {α : Type*} {p : α → Bool} {l : List α} {i : ℕ}
    (h : l.findIdx? p = some i) : ∃ a, l[i]? = some a ∧ p a = true := by
  have hfound := of_findIdx?_eq_some h
  cases hget : l[i]? with
  | none =>
    rw [hget] at hfound
    cases hfound
  | some a =>
    rw [hget] at hfound
    exact ⟨a, rfl, hfound⟩

section Advance

variable {α : Type} {s s' t : State} {before after : List QuerySlot} {q q' : QuerySlot}
  {finished : Bool} {n : Native}

theorem Advance.refl (h : Sound s) : Advance s none s :=
  ⟨h, fun _ h => h, fun _ h => .inl h, (append_nil _).symm, fun _ h => nomatch h⟩

/-- Nothing that matters to the tokens happened before. -/
theorem Advance.of_same {sink : Option DnsQueryResult} (h : Advance t sink s')
    (hn : t.nextToken = s.nextToken) (hact : activeTokens t.queries = activeTokens s.queries)
    (hlog : t.completed = s.completed) : Advance s sink s' := by
  obtain ⟨hs, hissued, hl, hcompleted, hreported⟩ := h
  rw [hn] at hissued hl hreported
  rw [hact] at hl hreported
  rw [hlog] at hcompleted
  exact ⟨hs, hissued, hl, hcompleted, hreported⟩

/-- A native call on a query that is pending. -/
theorem Focus.waiting {callbacks : List Callback} (h : Focus s before q after true)
    (hact : q.active = true) (hslot : SlotSound s.nextToken q)
    (hfresh : q.token ∉ activeTokens (before ++ after))
    (hares : DnsResolvers.ares s before.length false callbacks = some t) :
    ∃ q' finished, Waiting s.completed t before q' after finished ∧ q'.token = q.token ∧
      t.nextToken = s.nextToken ∧ activeTokens t.queries = activeTokens s.queries := by
  obtain ⟨hdone, hcanceling, -, hchan, hissued⟩ := hslot.busy hact
  obtain ⟨q', finished, ht, hfocus, hchan', -⟩ := h.ares hchan hares
  rw [Bool.true_and] at hfocus hchan'
  have hact' := ht.active.trans hact
  refine ⟨q', finished, ⟨hfocus, ?_, hact', ht.canceling.trans hcanceling, ?_, hchan', ?_, ?_⟩,
    ht.token, ht.nextToken, ?_⟩
  · rw [ht.completed, ht.token]
  · rw [ht.done, hdone]
    cases finished <;> rfl
  · rw [ht.token, ht.nextToken]
    exact hissued
  · rwa [ht.token]
  · rw [hfocus.queries, h.queries, activeTokens_of_active before after hact',
      activeTokens_of_active before after hact, ht.token]

/-- A query that is retired is reported under its own token. -/
theorem Waiting.advance (h : Waiting s.completed t before q after finished) {value : Result α}
    {outcome : Outcome α} (hsettle : settle t before.length n value = some (some outcome))
    (hissued : ∀ token, Issued s.nextToken token → Issued t.nextToken token)
    (hothers : ∀ token ∈ activeTokens (before ++ after), token ∈ activeTokens s.queries)
    (htoken : q.token ∈ activeTokens s.queries ∨ ¬ Issued s.nextToken q.token) :
    Advance s outcome.sink outcome.state := by
  obtain ⟨-, ⟨result, hsink, hres⟩, hs, hn, hcompleted, hact⟩ := settle_some h hsettle
  rw [hsink]
  refine ⟨hs, ?_, ?_, ?_, ?_⟩
  · rw [hn]
    exact hissued
  · rw [hact]
    exact fun token htoken => .inl (hothers token htoken)
  · rw [hcompleted, ← hres]
    rfl
  rintro _ ⟨⟩
  rw [hres, hn, hact]
  exact ⟨htoken, h.issued, h.fresh⟩

variable {o : Outcome Unit}

theorem processQueries_advance {queries : List (ℕ × DnsQueryToken)} {k : ℕ} (h : Sound s)
    (hproc : processQueries n s queries k = some o) : Advance s o.sink o.state := by
  induction queries generalizing s k with
  | nil =>
    cases hproc
    exact .refl h
  | cons query rest ih =>
    obtain ⟨i, token⟩ := query
    obtain ⟨q, hq, hproc⟩ := bind_eq_some_iff.mp hproc
    split at hproc
    · exact ih h hproc
    rename_i hskip
    have hact : q.active = true := by
      by_contra hidle
      exact hskip (by simp [hidle])
    obtain ⟨t, hares, hproc⟩ := bind_eq_some_iff.mp hproc
    obtain ⟨before, after, rfl, hfocus, hfresh⟩ := h.focus_of_active hq hact
    have hslot := h.slots q (mem_of_getElem? hq)
    obtain ⟨q', finished, hwait, htoken, hn, htoks⟩ := hfocus.waiting hact hslot hfresh hares
    obtain ⟨settled, hs, hproc⟩ := bind_eq_some_iff.mp hproc
    cases settled with
    | none =>
      obtain ⟨hsound, hcompleted⟩ := settle_none hwait hs
      exact (ih hsound hproc).of_same hn htoks hcompleted
    | some outcome =>
      cases hproc
      refine hwait.advance hs (fun _ h => hn ▸ h) (fun token hmem => ?_) (.inl ?_)
      · rw [hfocus.queries, activeTokens_of_active before after hact]
        rw [activeTokens_append] at hmem
        exact ((sublist_cons_self _ _).append_left _).mem hmem
      · rw [htoken]
        exact mem_activeTokens.mpr ⟨q, mem_of_getElem? hq, hact, rfl⟩

variable {token : DnsQueryToken}

theorem Focus.tokens_mem {pending : Bool} (h : Focus s before q after pending)
    (hmem : token ∈ activeTokens (before ++ after)) : token ∈ activeTokens s.queries := by
  obtain ⟨r, hr, hact, htoken⟩ := mem_activeTokens.mp hmem
  refine mem_activeTokens.mpr ⟨r, ?_, hact, htoken⟩
  rw [h.queries]
  exact ((sublist_cons_self _ _).append_left _).mem hr

/-- The slot is taken for a token that was never used. -/
theorem Focus.start (h : Focus s before q after false) (hn : s.nextToken ≠ 0#64) : Focus { s with
        nextToken := s.nextToken + 1#64
        queries := s.queries.modify before.length (startedSlot s.nextToken) }
      before (startedSlot s.nextToken q) after false where
  queries := by
    rw [h.queries, modify_middle]
  capacity := by simpa using h.capacity
  running := h.running
  limit := h.limit
  slots := fun r hr => ⟨fun hbusy => by
    obtain ⟨hdone, hcanceling, hsocket, hchan, hissued⟩ := (h.slots r hr).busy hbusy
    exact ⟨hdone, hcanceling, hsocket, hchan, issued_succ hn hissued⟩, (h.slots r hr).idle⟩
  tokens := h.tokens
  counted := h.counted
  bounded := h.bounded

theorem initializeChannel_spec {result : Result Unit} (h : Focus s before q after false)
    (hinit : initializeChannel s before.length n = some (result, s')) :
    ∃ q', Focus s' before q' after false ∧ s'.nextToken = s.nextToken ∧
      s'.outstanding = s.outstanding ∧ s'.limits = s.limits ∧ s'.completed = s.completed ∧
      q'.active = q.active ∧ (result = .ok () → q' = { q with channel := some ⟨false⟩ }) := by
  have hget := h.get
  unfold initializeChannel at hinit
  rw [hget, bind_eq_bind, bind_some] at hinit
  split at hinit
  · cases hinit
    exact ⟨q, h, rfl, rfl, rfl, rfl, rfl, fun h => nomatch h⟩
  have hfocus := h.setQuery { q with channel := some ⟨false⟩ }
  by_cases hconfigured : (s.setQuery before.length { q with channel := some ⟨false⟩
      }).hasExplicitNameservers ∧ n.configured ≠ .success
  · rw [if_pos hconfigured] at hinit
    obtain ⟨t, hares, hinit⟩ := bind_eq_some_iff.mp hinit
    cases hinit
    obtain ⟨q', finished, ht, hfocus', -, hmust⟩ := hfocus.ares rfl hares
    cases hmust rfl
    refine ⟨{ q' with channel := none }, hfocus'.move ?_ rfl rfl rfl rfl hfocus'.bounded,
      ht.nextToken, ht.outstanding, ht.limits, ht.completed.trans (append_nil _), ht.active,
      fun h => nomatch h⟩
    rw [ht.queries, modify_middle]
  · rw [if_neg hconfigured] at hinit
    cases hinit
    exact ⟨_, hfocus, rfl, rfl, rfl, rfl, rfl, fun _ => rfl⟩

variable {hostname : List (BitVec 8)} {family : DnsQueryFamily}

theorem resolve_cases {o : Outcome DnsQueryToken} (hrslv : resolve s hostname family n = some o) :
    (∃ e, o = ⟨.error e, s, none⟩) ∨
      ∃ i, s.outstanding ≠ s.limits.maximumOutstandingQueries ∧ freeSlot s = some i ∧
        s.nextToken ≠ 0#64 ∧ startQuery s i n = some o := by
  unfold resolve at hrslv
  cases hcheck : checkHostname hostname family with
  | error e =>
    rw [hcheck] at hrslv
    cases hrslv
    exact .inl ⟨_, rfl⟩
  | ok u =>
    rw [hcheck] at hrslv
    cases hfree : freeSlot s with
    | none =>
      rw [hfree] at hrslv
      split_ifs at hrslv <;> cases hrslv <;> exact .inl ⟨_, rfl⟩
    | some i =>
      rw [hfree] at hrslv
      split_ifs at hrslv with hlimit hn
      · cases hrslv
        exact .inl ⟨_, rfl⟩
      · cases hrslv
        exact .inl ⟨_, rfl⟩
      · exact .inr ⟨i, hlimit, rfl, hn, hrslv⟩

theorem startQuery_advance {i : ℕ} {o : Outcome DnsQueryToken} (h : Sound s)
    (hlimit : s.outstanding ≠ s.limits.maximumOutstandingQueries) (hfree : freeSlot s = some i)
    (hn : s.nextToken ≠ 0#64) (hstart : startQuery s i n = some o) :
    Advance s o.sink o.state ∧ ∀ token, o.value = .ok token →
        ¬ Issued s.nextToken token ∧ Issued o.state.nextToken token := by
  obtain ⟨q, hq, hidle⟩ := getElem?_of_findIdx? hfree
  obtain ⟨before, after, rfl, hfocus⟩ := h.focus_of_idle hq (by simpa using hidle)
  have hstarted := hfocus.start hn
  have hissued : ∀ token, Issued s.nextToken token → Issued (s.nextToken + 1#64) token :=
    fun _ => issued_succ hn
  have hfresh : s.nextToken ∉ activeTokens (before ++ after) := by
    intro hmem
    obtain ⟨r, hr, hact, htoken⟩ := mem_activeTokens.mp hmem
    have hold := ((hfocus.slots r hr).busy hact).2.2.2.2
    rw [htoken] at hold
    exact not_issued_self hn hold
  obtain ⟨⟨result, t⟩, hinit, hstart⟩ := bind_eq_some_iff.mp hstart
  obtain ⟨q', hfocus', hn', hout, hlim, hlog, hact', hok⟩ :=
    initializeChannel_spec hstarted hinit
  cases result with
  | error e =>
    cases hstart
    have hfinal : Focus { t with queries := t.queries.modify before.length finishQuery } before
        (finishQuery q') after false :=
      hfocus'.move (by rw [hfocus'.queries, modify_middle]) rfl rfl rfl rfl hfocus'.bounded
    have hidle' : (finishQuery q').active = false ∧ (finishQuery q').channel = none := by
      simp [finishQuery, hact', startedSlot]
    obtain ⟨hs, htoks⟩ := hfinal.sound_of_idle hidle'.1 hidle'.2
    refine ⟨⟨hs, ?_, ?_, hlog.trans (append_nil _).symm, ?_⟩, ?_⟩
    · rw [hn']
      exact hissued
    · rw [htoks]
      exact fun token hmem => .inl (hfocus.tokens_mem hmem)
    · rintro completion ⟨⟩
    · rintro token ⟨⟩
  | ok u =>
    obtain ⟨r, hares, hstart⟩ := bind_eq_some_iff.mp hstart
    cases hok rfl
    have hbounded := h.bounded
    have hpend : Focus { t with
          outstanding := t.outstanding + 1
          queries := t.queries.modify before.length fun q => { q with channel := some ⟨true⟩ } }
        before { startedSlot s.nextToken q with channel := some ⟨true⟩ } after true := by
      refine hfocus'.move ?_ rfl rfl rfl rfl ?_
      · rw [hfocus'.queries, modify_middle]
      rw [hout, hlim]
      dsimp only
      omega
    obtain ⟨q'', finished, hwait, htoken, hn'', htoks⟩ := hpend.waiting rfl
      ⟨fun _ => ⟨rfl, rfl, rfl, rfl, hn' ▸ issued_self hn⟩, by simp [startedSlot]⟩
      hfresh hares
    have hnew : r.nextToken = s.nextToken + 1#64 := hn''.trans hn'
    have hwait : Waiting s.completed r before q'' after finished := hlog ▸ hwait
    obtain ⟨settled, hsettle, hstart⟩ := bind_eq_some_iff.mp hstart
    cases settled with
    | none =>
      cases hstart
      obtain ⟨hs, hcompleted⟩ := settle_none hwait hsettle
      refine ⟨⟨hs, ?_, ?_, hcompleted.trans (append_nil _).symm, ?_⟩, ?_⟩
      · rw [hnew]
        exact hissued
      · intro token hmem
        rw [htoks, hpend.queries, activeTokens_of_active before after rfl] at hmem
        rcases mem_append.mp hmem with hmem | hmem
        · exact .inl (hfocus.tokens_mem (activeTokens_append .. ▸ mem_append_left _ hmem))
        rcases mem_cons.mp hmem with rfl | hmem
        · exact .inr (not_issued_self hn)
        · exact .inl (hfocus.tokens_mem (activeTokens_append .. ▸ mem_append_right _ hmem))
      · rintro completion ⟨⟩
      · intro token hv
        cases hv
        rw [hnew]
        exact ⟨not_issued_self hn, issued_self hn⟩
    | some outcome =>
      cases hstart
      refine ⟨hwait.advance hsettle (hnew ▸ hissued) (fun _ hmem => hfocus.tokens_mem hmem)
        (.inr ?_), ?_⟩
      · rw [htoken]
        exact not_issued_self hn
      obtain ⟨hv, -, hretired⟩ := settle_some hwait hsettle
      intro token htoken
      rw [hv] at htoken
      cases htoken
      rw [hretired.nextToken, hnew]
      exact ⟨not_issued_self hn, issued_self hn⟩

theorem resolve_advance {o : Outcome DnsQueryToken} (h : Sound s)
    (hrslv : resolve s hostname family n = some o) :
    Advance s o.sink o.state ∧ ∀ token, o.value = .ok token →
        ¬ Issued s.nextToken token ∧ Issued o.state.nextToken token := by
  rcases resolve_cases hrslv with ⟨e, rfl⟩ | ⟨i, hlimit, hfree, hn, hstart⟩
  · exact ⟨.refl h, fun _ h => nomatch h⟩
  · exact startQuery_advance h hlimit hfree hn hstart

def canceledResult (token : DnsQueryToken) : DnsQueryResult :=
  ⟨token, [], some (coreError .cancellation "DNS query was canceled")⟩

theorem cancel_advance (h : Sound s) (hcancel : cancel s token n = some o) :
    Advance s o.sink o.state ∧ ((∃ e, o.value = .error e) ∧ o.sink = none ∨
        o.value = .ok () ∧ o.sink = some (canceledResult token)) := by
  unfold cancel at hcancel
  cases hfind : findQuery s token with
  | none =>
    rw [hfind] at hcancel
    cases hcancel
    exact ⟨.refl h, .inl ⟨⟨_, rfl⟩, rfl⟩⟩
  | some i =>
    rw [hfind] at hcancel
    obtain ⟨q, hq, hfound⟩ : ∃ q, s.queries[i]? = some q ∧
        (q.active && !q.nativeDone && decide (q.token = token)) = true := by
      unfold findQuery at hfind
      split_ifs at hfind
      exact getElem?_of_findIdx? hfind
    simp only [Bool.and_eq_true, decide_eq_true_eq] at hfound
    obtain ⟨⟨hact, -⟩, rfl⟩ := hfound
    have hslot := (h.slots q (mem_of_getElem? hq)).busy hact
    obtain ⟨before, after, rfl, hfocus, hfresh⟩ := h.focus_of_active hq hact
    dsimp only at hcancel
    rw [hq, bind_eq_bind, bind_some, if_neg (by simp [hslot.2.1])] at hcancel
    obtain ⟨t, hares, hcancel⟩ := bind_eq_some_iff.mp hcancel
    obtain ⟨q', finished, ht, hfocus', hchan, hmust⟩ :=
      (hfocus.setQuery { q with canceling := true }).ares hslot.2.2.2.1 hares
    cases hmust rfl
    have hget := hfocus'.get
    rw [hget, bind_eq_bind, bind_some, if_neg (by simp [ht.done])] at hcancel
    obtain ⟨u, hretire, hcancel⟩ := bind_eq_some_iff.mp hcancel
    cases hcancel
    obtain ⟨hs, hn, hcompleted, htoks⟩ :=
      retireChannel_spec hfocus' (ht.active.trans hact) hchan hretire
    have hl : u.nextToken = s.nextToken := hn.trans ht.nextToken
    refine ⟨⟨hs, hl ▸ fun _ h => h, ?_, hcompleted.trans ht.completed, ?_⟩, .inr ⟨rfl, rfl⟩⟩
    · rw [htoks]
      exact fun token hmem => .inl (hfocus.tokens_mem hmem)
    rintro _ ⟨⟩
    rw [hl, htoks]
    exact ⟨.inl (mem_activeTokens.mpr ⟨q, mem_of_getElem? hq, hact, rfl⟩), hslot.2.2.2.2, hfresh⟩

theorem processEvents_advance {events : List DnsSocketEvent} (h : Sound s)
    (hproc : processEvents s events n = some o) : Advance s o.sink o.state := by
  unfold processEvents at hproc
  split_ifs at hproc
  · cases hproc
    exact .refl h
  cases hevents : eventQueries s events with
  | error e =>
    rw [hevents] at hproc
    cases hproc
    exact .refl h
  | ok queries =>
    rw [hevents] at hproc
    exact processQueries_advance h hproc

end Advance

/-- A free slot is found whenever the limit is not reached. -/
theorem Sound.freeSlot_isSome {s : State} (h : Sound s)
    (hlimit : s.outstanding < s.limits.maximumOutstandingQueries) : (freeSlot s).isSome = true := by
  by_contra hn
  have hall : ∀ q ∈ s.queries, q.active = true := by
    intro q hq
    have := findIdx?_eq_none_iff.mp (not_isSome_iff_eq_none.mp hn) q hq
    simpa using this
  have hlen : (activeTokens s.queries).length = s.queries.length := by
    have hmap : activeTokens s.queries = s.queries.map QuerySlot.token := by
      rw [← filterMap_eq_map]
      exact filterMap_congr fun q hq => if_pos (hall q hq)
    rw [hmap, length_map]
  have hcounted := h.counted
  have hcap := h.capacity
  have hmax := h.limit
  omega

theorem create_sound {config : DnsResolverConfig} {s : State} (h : create config = .ok s) :
    Sound s ∧ s.completed = [] := by
  simp only [create, bind_eq_ok, require_eq_ok] at h
  obtain ⟨_, _, _, hlim, _, _, h⟩ := h
  have hfresh : ∀ explicit : Bool,
      Sound { limits := config.limits, hasExplicitNameservers := explicit } := by
    intro explicit
    refine ⟨rfl, rfl, hlim.2.1, ?_, ?_, rfl, Nat.zero_le _⟩
    · intro q hq
      obtain rfl := eq_of_mem_replicate hq
      exact ⟨(fun h => nomatch h), fun _ => rfl⟩
    · exact nodup_nil
  split_ifs at h
  · obtain ⟨_, _, h⟩ := bind_eq_ok.mp h
    cases h
    exact ⟨hfresh true, rfl⟩
  · cases h
    exact ⟨hfresh false, rfl⟩

end Laghu.DnsResolvers
