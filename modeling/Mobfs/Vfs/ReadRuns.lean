import Mobfs.Vfs.ReadSteps
/-!
# Reads beside other readers

`read_returns_iff`: of a file that does not change a read returns what was asked for, and it
is never stuck behind a fetch of another thread, if and only if the state of its inode
admitted it. With `--readahead-mib 1` the first read of a file panics
(`read_panics_one_block`).
-/

namespace Mobfs

open Lib Std

namespace FileRead

variable {cs : Bytes} {me : Nat} {r : ReadCall} {s s' : FileRead}

/-! ## The read goes on to its end -/

variable (cs me r) in
/-- The others may take steps of their own on the way. -/
abbrev Goes (s s' : FileRead) : Prop :=
  Reaches (FileRead.step me r) (fun s a => s.Answered cs me r a ∧ Scheduled r s a) s s'

theorem Sound.goes (hfits : r.Fits cs) (h : Sound cs me r s)
    (hg : Goes cs me r s s') : Sound cs me r s' :=
  hg.inv (Sound cs me r) (fun _ _ _ hi ha hs => hi.step hfits ha hs) h

theorem answered_reply {t : Nat} {f : Fetch} (hf : s.cache.threads t = some f) :
    s.Answered cs me r (.cache (.run t (some (f.reply cs)))) := by
  intro f' offset len hf' hreq
  obtain rfl : f = f' := Option.some.inj (hf.symm.trans hf')
  rw [Fetch.reply, hreq]

theorem bare_noted (a : CacheAct) : (s.noted me a).bare = s.stage.bare := by
  unfold noted
  split
  · rename_i hstage _
    rw [hstage]
    rfl
  · rfl

variable (cs me r) in
theorem goes_run {t : Nat} {f : Fetch} {c : BlockCache} (hf : s.cache.threads t = some f)
    (hs : s.cache.goOnWith t (some (f.reply cs)) f = some c) :
    ∃ s', Goes cs me r s s' ∧ s'.cache.threads = c.threads ∧ s'.cache.finished = c.finished ∧ s'.stage.bare = s.stage.bare := by
  refine ⟨{ s with cache := { c with now := s.cache.now + 1 }, stage := s.noted me (.run t (some (f.reply cs))) },
    .single ⟨answered_reply hf, trivial⟩ ?_, rfl, rfl, bare_noted _⟩
  rw [FileRead.step, if_neg (by simp [CacheAct.caller]), BlockCache.step, BlockCache.act, hf, Option.bind_some, hs]
  rfl

/-- The call of the thread ends, and with it these flights. The calls of the others are
where they were. -/
structure Ends (cs : Bytes) (me : Nat) (r : ReadCall) (t : Nat) (flights : List Nat) (s s' : FileRead) : Prop where
  goes : Goes cs me r s s'
  ended : s'.cache.threads t = none
  others : ∀ u, u ≠ t → s'.cache.threads u = s.cache.threads u
  finished : flights ⊆ s'.cache.finished
  stage : s'.stage.bare = s.stage.bare

variable {t : Nat} {flights : List Nat}

/-- A step of the call, and then its end. -/
theorem ends_head {f x : Fetch} {c : BlockCache} (hf : s.cache.threads t = some f)
    (hs : s.cache.goOnWith t (some (f.reply cs)) f = some c) (hx : c.threads t = some x)
    (hend : ∀ s : FileRead, s.cache.threads t = some x → ∃ s', Ends cs me r t flights s s') :
    ∃ s', Ends cs me r t flights s s' := by
  obtain ⟨s1, hgoes, hth, -, hstage⟩ := goes_run cs me r hf hs
  obtain ⟨s', h⟩ := hend s1 (by rw [hth, hx])
  refine ⟨s', hgoes.trans h.goes, h.ended, fun u hu => ?_, h.finished, h.stage.trans hstage⟩
  rw [h.others u hu, hth, BlockCache.goOnWith_others hs hu]

theorem ends_signal (hf : s.cache.threads t = some (.signal flights)) : ∃ s', Ends cs me r t flights s s' := by
  obtain ⟨s', hgoes, hth, hfin, hstage⟩ := goes_run cs me r hf rfl
  refine ⟨s', hgoes, ?_, fun u hu => ?_, ?_, hstage⟩
  · rw [hth]
    exact Function.update_self _ _ _
  · rw [hth]
    exact Function.update_of_ne hu _ _
  · rw [hfin]
    exact List.subset_append_left _ _

theorem ends_finish {job : FetchJob} (hf : s.cache.threads t = some (.finish job)) :
    ∃ s', Ends cs me r t job.flights s s' :=
  ends_head hf rfl (Function.update_self _ _ _) fun _ h => ends_signal h

theorem ends_insert {job : FetchJob} {g started position : Nat} {bs : List Bytes}
    (hf : s.cache.threads t = some (.insert job g started position bs)) : ∃ s', Ends cs me r t job.flights s s' := by
  induction bs generalizing s position with
  | nil => exact ends_head hf rfl (Function.update_self _ _ _) fun _ h => ends_finish h
  | cons b bs ih => exact ends_head hf rfl (Function.update_self _ _ _) fun _ h => ih h

theorem ends_reading {job : FetchJob} {g started : Nat} (hf : s.cache.threads t = some (.reading job g started)) :
    ∃ s', Ends cs me r t job.flights s s' :=
  ends_head hf rfl (Function.update_self _ _ _) fun _ h => ends_insert h

theorem ends_read {job : FetchJob} {g : Nat} (hf : s.cache.threads t = some (.read job g)) :
    ∃ s', Ends cs me r t job.flights s s' :=
  ends_head hf rfl (Function.update_self _ _ _) fun _ h => ends_reading h

theorem ends_generation {job : FetchJob} (hf : s.cache.threads t = some (.generation job)) :
    ∃ s', Ends cs me r t job.flights s s' :=
  ends_head hf rfl (Function.update_self _ _ _) fun _ h => ends_read h

/-- A call at work on blocks that others may wait for waits for nobody. -/
theorem ends_working {f : Fetch} (hf : s.cache.threads t = some f) (hw : f.working = true) :
    ∃ s', Ends cs me r t f.leads s s' := by
  cases f with
  | generation job => exact ends_generation hf
  | read job g => exact ends_read hf
  | reading job g started => exact ends_reading hf
  | insert job g started position bs => exact ends_insert hf
  | finish job => exact ends_finish hf
  | signal flights => exact ends_signal hf
  | _ => cases hw

/-! ## No call of the read is stuck -/

/-- The thread of the read is done with its call, and the read is where it was. -/
def Returns (cs : Bytes) (me : Nat) (r : ReadCall) (s : FileRead) : Prop :=
  ∃ s', Goes cs me r s s' ∧ s'.cache.threads me = none ∧ s'.stage.bare = s.stage.bare

theorem Returns.head {f : Fetch} {c : BlockCache} (hf : s.cache.threads me = some f)
    (hs : s.cache.goOnWith me (some (f.reply cs)) f = some c)
    (hend : ∀ s1 : FileRead, Goes cs me r s s1 → s1.cache.threads me = c.threads me → Returns cs me r s1) :
    Returns cs me r s := by
  obtain ⟨s1, hgoes, hth, -, hstage⟩ := goes_run cs me r hf hs
  obtain ⟨s', hgoes', hnone, hstage'⟩ := hend s1 hgoes (by rw [hth])
  exact ⟨s', hgoes.trans hgoes', hnone, hstage'.trans hstage⟩

theorem Returns.of_none (h : s.cache.threads me = none) : Returns cs me r s := ⟨s, .refl s, h, rfl⟩

theorem Returns.of_working {f : Fetch} (hf : s.cache.threads me = some f) (hw : f.working = true) : Returns cs me r s := by
  obtain ⟨s', h⟩ := ends_working hf hw
  exact ⟨s', h.goes, h.ended, h.stage⟩

theorem returns_readAlone {key : BlockKey} (hf : s.cache.threads me = some (.readAlone key)) : Returns cs me r s :=
  .head hf rfl fun _ _ h => .of_none (h.trans (Function.update_self _ _ _))

theorem returns_lookupAgain {key : BlockKey} (hf : s.cache.threads me = some (.lookupAgain key)) : Returns cs me r s := by
  refine .head hf rfl fun s1 _ h => ?_
  simp only [BlockCache.goOn, Function.update_self] at h
  split at h
  · exact .of_none h
  · exact returns_readAlone h

/-- It waits for a flight that has ended, or that another thread can end. -/
theorem returns_wait {flight : Nat} {key : BlockKey} (hled : s.cache.Led)
    (hf : s.cache.threads me = some (.wait flight key)) : Returns cs me r s := by
  have hdone : ∀ s1 : FileRead, s1.cache.threads me = some (.wait flight key) → flight ∈ s1.cache.finished →
      Returns cs me r s1 := by
    intro s1 hf hfin
    have hstep : s1.cache.goOnWith me (some (Fetch.reply cs (.wait flight key))) (.wait flight key) =
        some (s1.cache.goOn me (some (.lookupAgain key))) := if_pos hfin
    exact .head hf hstep fun _ _ h => returns_lookupAgain (h.trans (Function.update_self _ _ _))
  rcases hled.waiting me flight key hf with hfin | ⟨u, x, hx, hm⟩
  · exact hdone s hf hfin
  · have hw : x.working = true := by
      cases x <;> first | rfl | cases hm
    obtain ⟨s1, h⟩ := ends_working hx hw
    have hu : me ≠ u := by
      rintro rfl
      obtain rfl := Option.some.inj (hf.symm.trans hx)
      cases hm
    obtain ⟨s', hgoes, hnone, hstage⟩ := hdone s1 ((h.others me hu).trans hf) (h.finished hm)
    exact ⟨s', h.goes.trans hgoes, hnone, hstage.trans h.stage⟩

theorem returns_join (hfits : r.Fits cs) {key : BlockKey}
    (h : Sound cs me r s) (hf : s.cache.threads me = some (.join key)) : Returns cs me r s := by
  cases hin : s.cache.inflight[key]? with
  | some flight =>
    have hstep : s.cache.goOnWith me (some (Fetch.reply cs (.join key))) (.join key) =
        some (s.cache.goOn me (some (.wait flight key))) := by rw [BlockCache.goOnWith, hin]
    refine .head hf hstep fun s1 hgoes hth => ?_
    exact returns_wait (h.goes hfits hgoes).led (hth.trans (Function.update_self _ _ _))
  | none =>
    have hstep : s.cache.goOnWith me (some (Fetch.reply cs (.join key))) (.join key) =
        some ({ s.cache with
          inflight := s.cache.inflight.insert key s.cache.nextFlight
          nextFlight := s.cache.nextFlight + 1 }.goOn me (some (.generation ⟨key.1, key.2, [s.cache.nextFlight], false⟩))) := by
      rw [BlockCache.goOnWith, hin]
    exact .head hf hstep fun s1 _ hth => .of_working (hth.trans (Function.update_self _ _ _)) rfl

theorem returns_lookup (hfits : r.Fits cs) {key : BlockKey}
    (h : Sound cs me r s) (hf : s.cache.threads me = some (.lookup key)) : Returns cs me r s := by
  refine .head hf rfl fun s1 hgoes hth => ?_
  simp only [BlockCache.goOn, Function.update_self] at hth
  split at hth
  · exact .of_none hth
  · exact returns_join hfits (h.goes hfits hgoes) hth

theorem returns_register {p : String} {first count : Nat} (hf : s.cache.threads me = some (.register p first count)) :
    Returns cs me r s := by
  refine .head hf rfl fun s1 _ hth => ?_
  simp only [BlockCache.goOn, Function.update_self] at hth
  split at hth
  · exact .of_none hth
  · exact .of_working hth rfl

theorem returns_fetchOk (hfits : r.Fits cs) {index : Nat} {value : Option (Option Bytes)} (h : Sound cs me r s)
    (hok : FetchOk cs r.path index value (s.cache.threads me)) : Returns cs me r s := by
  cases hf : s.cache.threads me with
  | none => exact .of_none hf
  | some f =>
    rw [hf] at hok
    cases f with
    | lookup key => exact returns_lookup hfits h hf
    | join key => exact returns_join hfits h hf
    | wait flight key => exact returns_wait h.led hf
    | lookupAgain key => exact returns_lookupAgain hf
    | readAlone key => exact returns_readAlone hf
    | register p first count => exact hok.elim
    | tree d paths => exact hok.elim
    | _ => exact .of_working hf rfl

theorem returns_runOk (hok : RunOk (s.cache.threads me)) : Returns cs me r s := by
  cases hf : s.cache.threads me with
  | none => exact .of_none hf
  | some f =>
    rw [hf] at hok
    cases f with
    | register p first count => exact returns_register hf
    | lookup key => exact hok.elim
    | join key => exact hok.elim
    | wait flight key => exact hok.elim
    | lookupAgain key => exact hok.elim
    | readAlone key => exact hok.elim
    | tree d paths => exact hok.elim
    | _ => exact .of_working hf rfl

/-! ## No round of the read is stuck -/

theorem starts_call {f : Fetch} {a : CacheAct} (hnone : s.cache.threads me = none) (ha : s.cache.act a = s.cache.call me f) :
    ∃ c, s.cache.step a = some c ∧ c.threads me = some f := by
  refine ⟨{ s.cache.goOn me (some f) with now := s.cache.now + 1 }, ?_, Function.update_self _ _ _⟩
  rw [BlockCache.step, ha, BlockCache.call, hnone]
  rfl

/-- The read can go on to its end. -/
def Completes (cs : Bytes) (me : Nat) (r : ReadCall) (s : FileRead) : Prop :=
  ∃ s' result, Goes cs me r s s' ∧ s'.stage = .returned result

theorem Completes.of_goes (h : Goes cs me r s s') (h' : Completes cs me r s') : Completes cs me r s := by
  obtain ⟨s'', result, hgoes, hstage⟩ := h'
  exact ⟨s'', result, h.trans hgoes, hstage⟩

/-- A step of the read, if it is enabled. -/
theorem Completes.reader (hfits : r.Fits cs) (h : Sound cs me r s) (hst : s.stage ≠ .start)
    (hs : s.step me r .reader = some s') (h' : Sound cs me r s' → Completes cs me r s') : Completes cs me r s := by
  have hguard : s.Answered cs me r .reader ∧ Scheduled r s .reader := ⟨trivial, fun he => absurd he hst⟩
  exact .of_goes (.single hguard hs) (h' (h.step hfits hguard hs))

/-- From the first of the rounds on the read can go on to its end. -/
def RestCompletes (cs : Bytes) (me : Nat) (r : ReadCall) (rounds : List Nat) : Prop :=
  ∀ s : FileRead, Sound cs me r s → ∀ index rest g, rounds = index :: rest →
    s.stage = .look index rest g ∨ s.stage = .calling index rest g → Completes cs me r s

/-- The call of a round returns, the rounds to come complete: so does this one. -/
theorem completes_fetching (hfits : r.Fits cs) {index : Nat} {rest : List Nat} {g : Gathered} {value : Option (Option Bytes)}
    (h : Sound cs me r s) (hst : s.stage = .fetching index rest g value) (hrest : RestCompletes cs me r rest) : Completes cs me r s := by
  have hstage := h.stage
  rw [hst] at hstage
  obtain ⟨s1, hgoes, hnone, hbare⟩ := returns_fetchOk hfits h hstage.1
  have h1 := h.goes hfits hgoes
  have hst1 : ∃ v, s1.stage = .fetching index rest g v := by
    rw [hst] at hbare
    cases hs1 : s1.stage with
    | fetching index' rest' g' v =>
      rw [hs1] at hbare
      cases hbare
      exact ⟨v, rfl⟩
    | _ =>
      rw [hs1] at hbare
      cases hbare
  obtain ⟨v, hst1⟩ := hst1
  have hvalue := h1.stage
  rw [hst1, hnone] at hvalue
  obtain rfl : v = some (some (blockOf cs index)) := hvalue.1
  have hstep : s1.step me r .reader =
      some { s1 with stage := r.deliver s1.sequential index rest g (some (blockOf cs index)) } := by
    rw [FileRead.step, hst1, hnone]
  refine .of_goes hgoes (.reader hfits h1 (by simp [hst1]) hstep fun h2 => ?_)
  generalize hd : r.deliver s1.sequential index rest g (some (blockOf cs index)) = stage at h2
  rw [ReadCall.deliver] at hd
  split at hd
  · exact ⟨_, _, .refl _, hd.symm⟩
  · cases rest with
    | nil => exact ⟨_, _, .refl _, hd.symm⟩
    | cons i rest' =>
      rw [ReadCall.next] at hd
      split at hd
      · exact hrest _ h2 i rest' _ rfl (.inl hd.symm)
      · exact hrest _ h2 i rest' _ rfl (.inr hd.symm)

theorem completes_calling (hfits : r.Fits cs) {index : Nat} {rest : List Nat} {g : Gathered}
    (h : Sound cs me r s) (hst : s.stage = .calling index rest g) (hrest : RestCompletes cs me r rest) : Completes cs me r s := by
  have hstage := h.stage
  rw [hst] at hstage
  obtain ⟨c, hc, -⟩ := starts_call (a := .fetch me r.path index) hstage.1 rfl
  have hstep : s.step me r .reader = some { s with cache := c, stage := .fetching index rest g none } := by
    rw [FileRead.step, hst]
    simp only [hc, Option.map_some]
  exact .reader hfits h (by simp [hst]) hstep fun h1 => completes_fetching hfits h1 rfl hrest

theorem completes_running (hfits : r.Fits cs) {index : Nat} {rest : List Nat} {g : Gathered}
    (h : Sound cs me r s) (hst : s.stage = .running index rest g) (hrest : RestCompletes cs me r rest) : Completes cs me r s := by
  have hstage := h.stage
  rw [hst] at hstage
  obtain ⟨s1, hgoes, hnone, hbare⟩ := returns_runOk hstage.1
  have h1 := h.goes hfits hgoes
  have hst1 : s1.stage = .running index rest g := by
    rw [hst] at hbare
    cases hs1 : s1.stage with
    | fetching index' rest' g' v =>
      rw [hs1] at hbare
      cases hbare
    | _ =>
      rw [hs1] at hbare
      exact hbare
  have hstep : s1.step me r .reader = some { s1 with stage := .calling index rest g } := by
    simp [FileRead.step, hst1, hnone]
  exact .of_goes hgoes (.reader hfits h1 (by simp [hst1]) hstep fun h2 => completes_calling hfits h2 rfl hrest)

theorem completes_lookInflight (hfits : r.Fits cs) {index : Nat} {rest : List Nat} {g : Gathered}
    (h : Sound cs me r s) (hst : s.stage = .lookInflight index rest g) (hrest : RestCompletes cs me r rest) : Completes cs me r s := by
  have hstage := h.stage
  rw [hst] at hstage
  by_cases hin : s.cache.inflight.contains (r.path, index) = true
  · have hstep : s.step me r .reader = some { s with stage := .calling index rest g } := by
      simp only [FileRead.step, hst, hin, if_true]
    exact .reader hfits h (by simp [hst]) hstep fun h1 => completes_calling hfits h1 rfl hrest
  · obtain ⟨c, hc, -⟩ := starts_call (a := .fetchRun me r.path index (r.runLength index)) hstage.1 rfl
    have hstep : s.step me r .reader = some { s with cache := c, stage := .running index rest g } := by
      simp only [FileRead.step, hst, hin, hc, Option.map_some, Bool.false_eq_true, if_false]
    exact .reader hfits h (by simp [hst]) hstep fun h1 => completes_running hfits h1 rfl hrest

theorem completes_look (hfits : r.Fits cs) {index : Nat} {rest : List Nat} {g : Gathered}
    (h : Sound cs me r s) (hst : s.stage = .look index rest g) (hrest : RestCompletes cs me r rest) : Completes cs me r s := by
  by_cases hin : s.cache.store.blocks.contains (r.path, index) = true
  · have hstep : s.step me r .reader = some { s with stage := .calling index rest g } := by
      simp only [FileRead.step, hst, hin, if_true]
    exact .reader hfits h (by simp [hst]) hstep fun h1 => completes_calling hfits h1 rfl hrest
  · have hstep : s.step me r .reader = some { s with stage := .lookInflight index rest g } := by
      simp only [FileRead.step, hst, hin, Bool.false_eq_true, if_false]
    exact .reader hfits h (by simp [hst]) hstep fun h1 => completes_lookInflight hfits h1 rfl hrest

theorem completes_rounds (hfits : r.Fits cs) (rounds : List Nat) : RestCompletes cs me r rounds := by
  induction rounds with
  | nil =>
    intro s h index rest g he
    cases he
  | cons i rest ih =>
    rintro s h _ _ g ⟨⟩ hst
    rcases hst with hst | hst
    · exact completes_look hfits h hst ih
    · exact completes_calling hfits h hst ih

theorem completes_scheduled (hfits : r.Fits cs) (h : Sound cs me r s) (hst : s.stage = .scheduled) :
    Completes cs me r s := by
  obtain ⟨sequential, hstep⟩ : ∃ sequential, s.step me r .reader =
      some { s with sequential, stage := ReadCall.next sequential .empty (readIndices r.offset r.stop) } :=
    ⟨_, by rw [FileRead.step, hst]⟩
  refine .reader hfits h (by simp [hst]) hstep fun h1 => ?_
  generalize readIndices r.offset r.stop = rounds at h1
  cases rounds with
  | nil => exact ⟨_, _, .refl _, rfl⟩
  | cons index rest =>
    refine completes_rounds hfits (index :: rest) _ h1 index rest .empty rfl ?_
    rw [ReadCall.next]
    split
    · exact .inl rfl
    · exact .inr rfl

/-- A read that has gone past `schedule_readahead` can go on to its end. -/
theorem Sound.completes (hfits : r.Fits cs) (h : Sound cs me r s) (hbegun : s.stage ≠ .start) : Completes cs me r s := by
  cases hst : s.stage with
  | start => exact absurd hst hbegun
  | scheduled => exact completes_scheduled hfits h hst
  | panicked =>
    have hstage := h.stage
    rw [hst] at hstage
    exact hstage.elim
  | look index rest g => exact completes_look hfits h hst (completes_rounds hfits rest)
  | lookInflight index rest g => exact completes_lookInflight hfits h hst (completes_rounds hfits rest)
  | running index rest g => exact completes_running hfits h hst (completes_rounds hfits rest)
  | calling index rest g => exact completes_calling hfits h hst (completes_rounds hfits rest)
  | fetching index rest g value => exact completes_fetching hfits h hst (completes_rounds hfits rest)
  | returned result => exact ⟨s, result, .refl s, hst⟩

/-- Nothing is under way, and what is cached of the file is what the file has. -/
theorem sound_start {cache : BlockCache} (hidle : cache.Idle) (hin : cache.inflight = ∅)
    (hcached : ∀ i b, cache.store.block (r.path, i) = some b → b.data = blockOf cs i) :
    Sound cs me r (FileRead.start cache) := by
  show Sound cs me r ⟨cache, ∅, .start, false⟩
  refine ⟨⟨hcached, fun t job g started position bs ht => ?_, fun t x job ht => ?_⟩,
    ⟨fun key flight hkey => ?_, fun t flight key ht => ?_⟩, (fun ino => .inl (by rw [stateOf_empty])), hidle me⟩
  · rw [hidle t] at ht
    cases ht
  · rw [hidle t] at ht
    cases ht
  · rw [hin, ExtTreeMap.getElem?_empty] at hkey
    cases hkey
  · rw [hidle t] at ht
    cases ht

/-! ## A read that panics -/

theorem panicked_step {a : ReadAct} (h : s.stage = .panicked) (hs : s.step me r a = some s') : s'.stage = .panicked := by
  cases a with
  | cache a =>
    simp only [FileRead.step, Option.ite_none_left_eq_some, Option.map_eq_some_iff] at hs
    obtain ⟨-, c', -, rfl⟩ := hs
    simp only [noted, h]
  | schedules q =>
    obtain ⟨x, -, rfl⟩ := Option.map_eq_some_iff.1 hs
    exact h
  | reader =>
    simp only [FileRead.step, h] at hs
    cases hs

theorem panicked_exec {as : List ReadAct} (h : s.stage = .panicked) (hs : exec (FileRead.step me r) s as = some s') :
    s'.stage = .panicked :=
  exec_inv (fun s : FileRead => s.stage = .panicked) (fun _ _ _ h hs => panicked_step h hs) h hs

theorem not_readsWell_of_panicked (h : s.stage = .panicked) : ¬ ReadsWell cs me r s := by
  rintro ⟨-, more, s', -, hmore, hst⟩
  rw [panicked_exec h hmore] at hst
  cases hst

/-- A read that is not admitted panics. -/
theorem scheduled_of_step (hs : s.step me r .reader = some s') (h : s'.stage ≠ .panicked) : Scheduled r s .reader := by
  intro hst
  simp only [FileRead.step, hst] at hs
  split at hs
  · exact .inl ‹_›
  · cases hcall : scheduleReadahead r.readaheadBlocks r.toReadAt s.readAhead with
    | ok x => exact .inr (admits_of_schedule hcall)
    | error e =>
      rw [hcall] at hs
      cases hs
      exact absurd rfl h

/-- In a run that does not come to a panic, the read was admitted. -/
theorem guarded_of_not_panicked {as : List ReadAct} (h : exec (FileRead.step me r) s as = some s')
    (hst : s'.stage ≠ .panicked) : Guarded (FileRead.step me r) (Scheduled r) s as := by
  induction as generalizing s with
  | nil => trivial
  | cons a as ih =>
    obtain ⟨s1, h1, hrest⟩ := exec_cons.1 h
    have hnext : ∀ s2, s.step me r a = some s2 → Guarded (FileRead.step me r) (Scheduled r) s2 as := by
      intro s2 h2
      rw [h1] at h2
      cases h2
      exact ih hrest
    refine ⟨?_, hnext⟩
    cases a with
    | reader =>
      have hs1 : s1.stage ≠ .panicked := fun hp => hst (panicked_exec hp hrest)
      exact scheduled_of_step h1 hs1
    | cache a => trivial
    | schedules q => trivial

end FileRead

/-- Whatever other readers, prefetch jobs and invalidations do, a read of a file that does not
change, once it has gone past its call of `schedule_readahead`, returns what was asked for, if it
returns, and can always go on to return, if and only if the state of its inode admitted it. -/
theorem read_returns_iff (cs : Bytes) (me : Nat) (r : ReadCall) (cache : BlockCache) (hlen : cs.length ≤ u64Max)
    (hsize : ∀ n, r.fileSize = some n → n = cs.length) (hidle : cache.Idle) (hin : cache.inflight = ∅)
    (hcached : ∀ i b, cache.store.block (r.path, i) = some b → b.data = blockOf cs i) (as : List ReadAct) (s : FileRead)
    (hrun : Guarded (FileRead.step me r) (FileRead.Answered cs me r) (.start cache) as)
    (h : exec (FileRead.step me r) (.start cache) as = some s) (hbegun : s.stage ≠ .start) :
    FileRead.ReadsWell cs me r s ↔ Guarded (FileRead.step me r) (FileRead.Scheduled r) (.start cache) as := by
  have hfits : r.Fits cs := ⟨hlen, hsize⟩
  constructor
  · intro hwell
    exact FileRead.guarded_of_not_panicked h fun hp => FileRead.not_readsWell_of_panicked hp hwell
  · intro hscheduled
    have hsound : FileRead.Sound cs me r s :=
      (FileRead.sound_start hidle hin hcached).goes hfits ⟨as, hrun.and hscheduled, h⟩
    have hreturned : ∀ {s : FileRead}, FileRead.Sound cs me r s → ∀ result, s.stage = .returned result →
        result = .ok (requested cs r.offset r.size) := by
      intro s hs result hst
      have hstage := hs.stage
      rw [hst] at hstage
      exact hstage.2
    refine ⟨hreturned hsound, ?_⟩
    obtain ⟨s', result, hgoes, hst⟩ := hsound.completes hfits hbegun
    obtain rfl := hreturned (hsound.goes hfits hgoes) result hst
    obtain ⟨more, hguarded, hmore⟩ := hgoes
    exact ⟨more, s', hguarded.mono fun _ _ h => h.1, hmore, hst⟩

/-- Two bytes of a file of three. -/
def smallRead (readaheadBlocks : Nat) : ReadCall :=
  ⟨⟨2, 1, 5, some 3, fun _ _ => false, fun _ => true, by decide, by decide, by simp [u64Max]⟩, "f", .eio, readaheadBlocks⟩

theorem read_returns_small :
    ∃ more s, exec (FileRead.step 0 (smallRead 16)) (.start .empty) (.reader :: more) = some s ∧
      s.stage = .returned (.ok [8, 9]) := by
  have hadmits : Admits 16 (stateOf ∅ (smallRead 16).ino) (smallRead 16).toReadAt := by
    rw [stateOf_empty]
    exact .inr (by decide)
  have hwindows : WindowsOk 16 ∅ := fun ino => .inl (by rw [stateOf_empty])
  obtain ⟨states, runs, hcall, -, -⟩ := schedule_spec hwindows hadmits
  have hstep : FileRead.step 0 (smallRead 16) (.start .empty) .reader = some ⟨.empty, states, .scheduled, false⟩ := by
    simp only [FileRead.step, FileRead.start]
    rw [if_neg (by decide), show (smallRead 16).readaheadBlocks = 16 from rfl, hcall]
  have hrun : exec (FileRead.step 0 (smallRead 16)) (.start .empty) [.reader] = some ⟨.empty, states, .scheduled, false⟩ :=
    exec_cons.2 ⟨_, hstep, rfl⟩
  have hscheduled : Guarded (FileRead.step 0 (smallRead 16)) (FileRead.Scheduled (smallRead 16)) (.start .empty) [.reader] :=
    ⟨fun _ => .inr hadmits, fun _ _ => trivial⟩
  obtain ⟨-, more, s, -, hmore, hst⟩ := (read_returns_iff [7, 8, 9] 0 (smallRead 16) .empty (by decide)
    (by rintro n ⟨⟩; rfl) (fun _ => rfl) rfl (fun i b hb => by cases hb) [.reader] ⟨.empty, states, .scheduled, false⟩
    ⟨trivial, fun _ _ => trivial⟩ hrun (by simp)).2 hscheduled
  exact ⟨more, s, exec_cons.2 ⟨_, hstep, hmore⟩, hst⟩

/-- With `--readahead-mib 1` the read panics, and never returns. -/
theorem read_panics_one_block :
    ∃ s, exec (FileRead.step 0 (smallRead 1)) (.start .empty) [.reader] = some s ∧ s.stage = .panicked ∧
      ¬ FileRead.ReadsWell [7, 8, 9] 0 (smallRead 1) s := by
  have hcall : scheduleReadahead 1 (smallRead 1).toReadAt ∅ = .error .panics := by
    rw [scheduleReadahead, stateOf_empty]
    rfl
  have hstep : FileRead.step 0 (smallRead 1) (.start .empty) .reader = some ⟨.empty, ∅, .panicked, false⟩ := by
    simp only [FileRead.step, FileRead.start]
    rw [if_neg (by decide), show (smallRead 1).readaheadBlocks = 1 from rfl, hcall]
  exact ⟨_, exec_cons.2 ⟨_, hstep, rfl⟩, rfl, FileRead.not_readsWell_of_panicked rfl⟩

end Mobfs
