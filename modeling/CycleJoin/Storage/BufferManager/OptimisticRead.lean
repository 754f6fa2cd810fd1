import CycleJoin.Storage.BufferManager.Owners

/-!
# Optimistic reads

A thread that reads a page optimistically loads the state word before and after its callback. The version in
the word grows each time the page is unpinned, but an eviction sets it to zero, so that the same word can come
back.

* `ReaderOk.step`: what is known while a callback runs, as long as the page is not set to evicted meanwhile.
* `optimisticRead_atomic_when`: in runs without such an eviction the words that a read has seen belong to one
  content. In any run an eviction loses nothing.
* `optimisticRead_torn`: an eviction during a callback.
-/

namespace CycleJoin

open List Function
namespace BufferManager

variable {ι ω : Type}

/-! ## Readers -/

/-- The words are those of the content. -/
def Matches (seen : List (ι × ω)) (content : ι → ω) : Prop := ∀ e ∈ seen, e.2 = content e.1

/-- What has become of the page since a reader has loaded the word `w` and seen some words. -/
inductive ReaderOk (s : State ι ω) (w : Nat) (seen : List (ι × ω)) : Prop
  /-- Nobody has changed the page. -/
  | same (version : getVersion s.shared.word = getVersion w)
      (state : getState s.shared.word = unlockedState ∨ getState s.shared.word = markedState)
      (seen : Matches seen s.shared.frame)
  /-- It is about to be evicted. -/
  | evictor (t : Nat) (role : (s.phase t).role = .evictor)
      (version : getVersion s.shared.word = getVersion w) (seen : Matches seen s.shared.frame)
  /-- It has been pinned. -/
  | held (t : Nat) (role : (s.phase t).role = .holder) (version : getVersion w ≤ getVersion s.shared.word)
  /-- It has been pinned and unpinned. -/
  | later (version : getVersion w < getVersion s.shared.word) (state : getState s.shared.word ≠ evictedState)
  /-- It will be evicted. -/
  | flusher (t : Nat) (role : (s.phase t).role = .flusher)
  /-- The version has come to its end, and the page stays locked. -/
  | stuck (state : getState s.shared.word = lockedState) (roles : ∀ t, (s.phase t).role = .none)

section Reader

variable {s s' : State ι ω} {t : Nat} {w : Nat} {seen : List (ι × ω)}

/-- A reader whose page is owned by `t`, in one of the roles that a reader can meet. -/
theorem ReaderOk.of_owner (h : ReaderOk s w seen) (hinv : Inv s) (hrole : (s.phase t).role ≠ .none) :
    ((s.phase t).role = .evictor ∧ getVersion s.shared.word = getVersion w ∧ Matches seen s.shared.frame) ∨
    ((s.phase t).role = .holder ∧ getVersion w ≤ getVersion s.shared.word) ∨
    getVersion w < getVersion s.shared.word ∨ (s.phase t).role = .flusher := by
  have hlocked := (hinv.phases t).locked hrole
  have howner (t' : Nat) (h' : (s.phase t').role ≠ .none) : t' = t := hinv.one t' t h' hrole
  cases h with
  | same version state seen =>
    rw [hlocked] at state
    exact absurd state (by decide)
  | evictor t' role version seen =>
    obtain rfl := howner t' (by simp [role])
    exact .inl ⟨role, version, seen⟩
  | held t' role version =>
    obtain rfl := howner t' (by simp [role])
    exact .inr (.inl ⟨role, version⟩)
  | later version state => exact .inr (.inr (.inl version))
  | flusher t' role =>
    obtain rfl := howner t' (by simp [role])
    exact .inr (.inr (.inr role))
  | stuck state roles => exact absurd (roles t) hrole

/-- A reader of a page that nobody owns and that is not locked. -/
theorem ReaderOk.of_unlocked (h : ReaderOk s w seen) (hinv : Inv s) (hnot : getState s.shared.word ≠ lockedState) :
    getState s.shared.word ≠ evictedState ∧ ((getVersion s.shared.word = getVersion w ∧ Matches seen s.shared.frame) ∨
        getVersion w < getVersion s.shared.word) := by
  have hnone {t' : Nat} {role : Role} (hrole : (s.phase t').role = role) (hne : role ≠ .none) : False :=
    hnot ((hinv.phases t').locked (hrole ▸ hne))
  cases h with
  | same version state seen =>
    refine ⟨fun hevicted => ?_, .inl ⟨version, seen⟩⟩
    rw [hevicted] at state
    exact absurd state (by decide)
  | evictor t' role => exact (hnone role (by decide)).elim
  | held t' role => exact (hnone role (by decide)).elim
  | later version state => exact ⟨state, .inr version⟩
  | flusher t' role => exact (hnone role (by decide)).elim
  | stuck state => exact absurd state hnot

/-- Nobody owns the page, and it has the same frame and version. -/
theorem ReaderOk.unowned (hreader : (getVersion s.shared.word = getVersion w ∧ Matches seen s.shared.frame) ∨
      getVersion w < getVersion s.shared.word) (hframe : s'.shared.frame = s.shared.frame)
    (hversion : getVersion s'.shared.word = getVersion s.shared.word)
    (hstate : getState s'.shared.word = unlockedState ∨ getState s'.shared.word = markedState) :
    ReaderOk s' w seen := by
  obtain ⟨hsame, hseen⟩ | hlater := hreader
  · exact .same (hversion.trans hsame) hstate (by rwa [hframe])
  · refine .later (by omega) fun hevicted => ?_
    rw [hevicted] at hstate
    exact absurd hstate (by decide)

theorem ReaderOk.append (h : ReaderOk s w seen) (i : ι) : ReaderOk s w (seen ++ [(i, s.shared.frame i)]) := by
  have hmatches (hseen : Matches seen s.shared.frame) : Matches (seen ++ [(i, s.shared.frame i)]) s.shared.frame := by
    intro e he
    obtain he | he := mem_append.mp he
    · exact hseen e he
    · rw [mem_singleton.mp he]
  cases h with
  | same version state seen => exact .same version state (hmatches seen)
  | evictor t role version seen => exact .evictor t role version (hmatches seen)
  | held t role version => exact .held t role version
  | later version state => exact .later version state
  | flusher t role => exact .flusher t role
  | stuck state roles => exact .stuck state roles

end Reader

section Step

variable [DecidableEq ι] [Fintype ι] [DecidableEq ω] [Zero ω]
  {s s' : State ι ω} {t : Nat} {a : Action ι ω} {w : Nat} {seen : List (ι × ω)}

theorem ReaderOk.step (h : ReaderOk s w seen) (hinv : Inv s) (hnot : s.phase t ≠ .released)
    (hstep : s.step t a = some s') : ReaderOk s' w seen := by
  obtain ⟨p', hthread, hphase, -⟩ := step_eq hstep
  have hmoves := moves_of_threadStep hthread
  have hok := hmoves.ok hinv.shared (hinv.phases t)
  have hself : s'.phase t = p' := by rw [hphase, update_self]
  have hne {t' : Nat} (ht' : t' ≠ t) : s'.phase t' = s.phase t' := by rw [hphase, update_of_ne ht']
  cases hrole : (s.phase t).role with
  | none =>
    by_cases hword : getState s.shared.word = lockedState
    · -- The page is locked by another thread, or for good: the step changes nothing.
      have hshared := hok.others hrole hword
      have hnone : p'.role = .none := by
        by_contra hp
        exact (hok.owner hp).elim (fun hown => hown hrole) fun hunlocked => hunlocked hword
      have hroles (t' : Nat) : (s'.phase t').role = (s.phase t').role := by
        by_cases ht' : t' = t
        · rw [ht', hself, hnone, hrole]
        · rw [hne ht']
      cases h with
      | same version state seen => exact .same (by rwa [hshared]) (by rwa [hshared]) (by rwa [hshared])
      | evictor t' role version seen =>
        exact .evictor t' ((hroles t').trans role) (by rwa [hshared]) (by rwa [hshared])
      | held t' role version => exact .held t' ((hroles t').trans role) (by rwa [hshared])
      | later version state => exact .later (by rwa [hshared]) (by rwa [hshared])
      | flusher t' role => exact .flusher t' ((hroles t').trans role)
      | stuck state roles => exact .stuck (by rwa [hshared]) fun t' => (hroles t').trans (roles t')
    · obtain ⟨hevicted, hreader⟩ := h.of_unlocked hinv hword
      obtain ⟨hshared, -⟩ | hcontra | ⟨hframe, hversion, ⟨hnone, hstate⟩ | ⟨hlock, howner⟩⟩ := hmoves.of_none hrole
      · refine ReaderOk.unowned hreader (by rw [hshared]) (by rw [hshared]) ?_
        have := hinv.shared.state
        rw [hshared]
        unfold lockedState at hword
        unfold evictedState at hevicted
        unfold unlockedState markedState
        omega
      · exact absurd hcontra hevicted
      · exact ReaderOk.unowned hreader hframe hversion hstate
      · obtain howner | howner := howner
        · refine .held t (by rw [hself, howner]) ?_
          obtain ⟨hsame, -⟩ | hlater := hreader <;> omega
        · obtain ⟨hsame, hseen⟩ | hlater := hreader
          · exact .evictor t (by rw [hself, howner]) (hversion.trans hsame) (by rwa [hframe])
          · refine .later (by omega) ?_
            rw [hlock]
            decide
  | loader =>
    have hzero := (hinv.phases t).version_eq_zero hrole
    obtain ⟨hcontra, -⟩ | ⟨hcontra, -⟩ | hlater | hcontra := h.of_owner hinv (t := t) (by simp [hrole])
    · simp [hrole] at hcontra
    · simp [hrole] at hcontra
    · omega
    · simp [hrole] at hcontra
  | holder =>
    have hle : getVersion w ≤ getVersion s.shared.word := by
      obtain ⟨hcontra, -⟩ | ⟨-, hle⟩ | hlater | hcontra := h.of_owner hinv (t := t) (by simp [hrole])
      · simp [hrole] at hcontra
      · exact hle
      · omega
      · simp [hrole] at hcontra
    obtain ⟨howner, hversion⟩ | ⟨hnone, hword⟩ := hmoves.of_holder (hinv.phases t) hrole
    · exact .held t (by rw [hself, howner]) (by omega)
    · obtain ⟨hunlocked, hversion, -⟩ | hlocked := unlockedWithNextVersion_cases s.shared.word
      · refine .later (by rw [hword]; omega) ?_
        rw [hword, hunlocked]
        decide
      · refine .stuck (by rw [hword, hlocked]) fun t' => ?_
        by_cases ht' : t' = t
        · rw [ht', hself, hnone]
        · rw [hne ht']
          by_contra hother
          exact ht' (hinv.one t' t hother (by simp [hrole]))
  | evictor =>
    have hreader : (getVersion s.shared.word = getVersion w ∧ Matches seen s.shared.frame) ∨
        getVersion w < getVersion s.shared.word := by
      obtain ⟨-, hsame⟩ | ⟨hcontra, -⟩ | hlater | hcontra := h.of_owner hinv (t := t) (by simp [hrole])
      · exact .inl hsame
      · simp [hrole] at hcontra
      · exact .inr hlater
      · simp [hrole] at hcontra
    have hlocked := (hinv.phases t).locked (by simp [hrole])
    obtain howner | ⟨howner, hshared⟩ | ⟨-, hframe, hversion, hunlocked⟩ := hmoves.of_evictor (hinv.phases t) hrole
    · exact .flusher t (by rw [hself, howner])
    · obtain ⟨hsame, hseen⟩ | hlater := hreader
      · exact .evictor t (by rw [hself, howner]) (by rwa [hshared]) (by rwa [hshared])
      · refine .later (by rwa [hshared]) ?_
        rw [hshared, hlocked]
        decide
    · exact ReaderOk.unowned hreader hframe hversion (.inl hunlocked)
  | flusher => exact .flusher t (by rw [hself, hmoves.of_flusher hrole hnot])

/-! ## Runs -/

/-- A page that is set to evicted has no reader in its callback. -/
def EvictsAlone (s : State ι ω) (t : Nat) (a : Action ι ω) : Prop :=
  s.phase t = .released → a = .next → ∀ t' w seen, s.phase t' ≠ .callback w seen

/-- All steps of a run are such. -/
def AllEvictAlone : State ι ω → List (Nat × Action ι ω) → Prop
  | _, [] => True
  | s, (t, a) :: steps => EvictsAlone s t a ∧ ∀ s', s.step t a = some s' → AllEvictAlone s' steps

/-- What holds in such a run. -/
structure ReadInv (s : State ι ω) : Prop where
  reader : ∀ t w seen, s.phase t = .callback w seen → ReaderOk s w seen
  returned : ∀ t seen contents, s.phase t = .returned seen contents → ∃ content ∈ contents, Matches seen content
  observed : ∀ t, s.phase t = .idle ∨ s.shared.page ∈ s.contents t

omit [DecidableEq ι] [Fintype ι] [DecidableEq ω] in
theorem readInv_init (file : ι → ω) : ReadInv (State.init file) where
  reader _ _ _ h := nomatch h
  returned _ _ _ h := nomatch h
  observed _ := .inl rfl

/-- How a thread has come to a phase in which it has seen words: it starts its callback on an unlocked page, it
reads a word, or it finds the word that it has loaded. -/
def CameBy (contents : List (ι → ω)) (sh sh' : Shared ι ω) (p : Phase ι ω) : Phase ι ω → Prop
  | .callback w seen => sh' = sh ∧ ((w = sh.word ∧ seen = [] ∧ getState sh.word = unlockedState) ∨
      ∃ seen₀ i, p = .callback w seen₀ ∧ seen = seen₀ ++ [(i, sh.frame i)])
  | .returned seen contents' => p = .callback sh.word seen ∧ contents' = contents
  | _ => True

omit [DecidableEq ι] [Fintype ι] [DecidableEq ω] [Zero ω] in
theorem Phase.Quiet.cameBy {contents : List (ι → ω)} {sh sh' : Shared ι ω} {p p' : Phase ι ω} (h : p'.Quiet) :
    CameBy contents sh sh' p p' := by
  cases p' <;> trivial

omit [Fintype ι] [DecidableEq ω] in
theorem Moves.cameBy {contents : List (ι → ω)} {sh sh' : Shared ι ω} {p p' : Phase ι ω}
    (h : Moves contents sh a p p' sh') : CameBy contents sh sh' p p' := by
  cases h with
  | callback hunlocked => exact ⟨rfl, .inl ⟨rfl, rfl, hunlocked⟩⟩
  | readWord i => exact ⟨rfl, .inr ⟨_, i, rfl, rfl⟩⟩
  | «return» => exact ⟨rfl, rfl⟩
  | unlock hp' | quiet _ hp' => exact hp'.cameBy
  | _ => trivial

omit [DecidableEq ι] [Fintype ι] [DecidableEq ω] [Zero ω] in
/-- After a step every thread has observed the present content. -/
theorem mem_observe (s : State ι ω) (t : Nat) (a : Action ι ω) (page : ι → ω) (t' : Nat) :
    page ∈ observe s t a page t' := by
  unfold observe
  split
  · split <;> exact mem_cons_self
  · exact mem_cons_self

theorem ReadInv.step (h : ReadInv s) (hinv : Inv s) (halone : EvictsAlone s t a)
    (hstep : s.step t a = some s') : ReadInv s' := by
  obtain ⟨p', hthread, hphase, hcontents⟩ := step_eq hstep
  have hcame := (moves_of_threadStep hthread).cameBy
  have hself : s'.phase t = p' := by rw [hphase, update_self]
  have hne {t' : Nat} (ht' : t' ≠ t) : s'.phase t' = s.phase t' := by rw [hphase, update_of_ne ht']
  -- A reader that was in its callback before the step.
  have hold {t' w : Nat} {seen : List (ι × ω)} (hcallback : s.phase t' = .callback w seen) : ReaderOk s' w seen := by
    refine (h.reader t' w seen hcallback).step hinv (fun hreleased => ?_) hstep
    have hnext : a = .next := by
      rw [hreleased] at hthread
      cases a <;> first | rfl | cases hthread
    exact halone hreleased hnext t' w seen hcallback
  refine ⟨fun t' w seen hcallback => ?_, fun t' seen contents hreturned => ?_, fun t' => .inr ?_⟩
  · by_cases ht' : t' = t
    · rw [ht', hself] at hcallback
      subst hcallback
      obtain ⟨hshared, ⟨hw, hseen, hunlocked⟩ | ⟨seen₀, i, hp, hseen⟩⟩ := hcame
      · rw [hw, hseen]
        refine .same (by rw [hshared]) (.inl (by rw [hshared, hunlocked])) fun e he => nomatch he
      · have hreader := (hold hp).append i
        rwa [hshared, ← hseen] at hreader
    · exact hold (hne ht' ▸ hcallback)
  · by_cases ht' : t' = t
    · rw [ht', hself] at hreturned
      subst hreturned
      obtain ⟨hp, rfl⟩ := hcame
      -- The word is the one that was loaded, so that nobody has changed the page.
      have hunlocked : getState s.shared.word = unlockedState := by
        have := hinv.phases t
        rw [hp] at this
        exact this
      have hres := (hinv.shared.resident (.inl hunlocked)).1
      have hreader := h.reader t _ seen hp
      obtain ⟨-, ⟨-, hseen⟩ | hlater⟩ := hreader.of_unlocked hinv (by rw [hunlocked]; decide)
      · refine ⟨s.shared.page, (h.observed t).resolve_left (by simp [hp]), ?_⟩
        rwa [← hres.1]
      · exact absurd hlater (Nat.lt_irrefl _)
    · exact h.returned t' seen contents (hne ht' ▸ hreturned)
  · rw [hcontents]
    exact mem_observe ..

theorem ReadInv.run {steps : List (Nat × Action ι ω)} (h : ReadInv s) (hinv : Inv s)
    (halone : AllEvictAlone s steps) (hrun : s.run steps = some s') : ReadInv s' := by
  induction steps generalizing s with
  | nil =>
    cases hrun
    exact h
  | cons step steps ih =>
    obtain ⟨s₁, hstep, hrun⟩ := Option.bind_eq_some_iff.mp hrun
    exact ih (h.step hinv halone.1 hstep) (hinv.step hstep) (halone.2 s₁ hstep) hrun

end Step

/-! ## Runs without an eviction -/

/-- The thread is in `tryEvictPage`. -/
def Phase.evicts : Phase ι ω → Bool
  | .evictLoaded _ | .evicting | .unlockingUnchanged _ | .flushed | .released => true
  | _ => false

section NoEviction

variable [DecidableEq ι] [Fintype ι] [DecidableEq ω] [Zero ω] {a : Action ι ω}

theorem evicts_of_step {contents : List (ι → ω)} {sh sh' : Shared ι ω} {p p' : Phase ι ω}
    (ha : a ≠ .evict) (hp : p.evicts = false) (h : threadStep contents sh p a = some (p', sh')) :
    p'.evicts = false := by
  unfold threadStep nextOperation at h
  repeat' split at h
  all_goals cases h <;> first | rfl | exact absurd rfl ha | cases hp

theorem allEvictAlone_of_no_evict {s : State ι ω} {steps : List (Nat × Action ι ω)}
    (hsteps : ∀ step ∈ steps, step.2 ≠ .evict) (hs : ∀ t, (s.phase t).evicts = false) :
    AllEvictAlone s steps := by
  induction steps generalizing s with
  | nil => trivial
  | cons step steps ih =>
    obtain ⟨t, a⟩ := step
    obtain ⟨ha, hsteps⟩ := forall_mem_cons.mp hsteps
    refine ⟨fun hreleased => ?_, fun s' hstep => ih hsteps fun t' => ?_⟩
    · have := hs t
      rw [hreleased] at this
      cases this
    · obtain ⟨p', hthread, hphase, -⟩ := step_eq hstep
      rw [hphase]
      by_cases ht' : t' = t
      · rw [ht', update_self]
        exact evicts_of_step ha (hs t) hthread
      · rw [update_of_ne ht']
        exact hs t'

end NoEviction

/-! ## Atomic reads -/

/-- In every run in which a page is set to evicted only while no callback runs on it, the words that a
returned read has seen belong to one content that the page had during the call. In every run the content of
the page is in the frame while it is there, and in the file when it has been evicted. -/
theorem optimisticRead_atomic_when [DecidableEq ι] [Fintype ι] [DecidableEq ω] [Zero ω] (file : ι → ω)
    (steps : List (Nat × Action ι ω)) (s : State ι ω) (hrun : (State.init file).run steps = some s) :
    (AllEvictAlone (State.init file) steps → ∀ t seen contents, s.phase t = .returned seen contents →
      ∃ content ∈ contents, Matches seen content) ∧
    (getState s.shared.word = evictedState → s.shared.file = s.shared.page) ∧
    (getState s.shared.word = unlockedState ∨ getState s.shared.word = markedState →
      s.shared.frame = s.shared.page) := by
  have hinv := (inv_init file).run hrun
  refine ⟨fun halone => ?_, fun h => (hinv.shared.evicted h).2, fun h => (hinv.shared.resident h).1.1⟩
  exact ((readInv_init file).run (inv_init file) halone hrun).returned

local instance neZero_two : NeZero 2 := ⟨two_ne_zero⟩

/-- A page of two words. -/
def twoWords (x y : Nat) : Fin 2 → Nat := fun i => if i = 0 then x else y

/-- The thread pins the page, which is evicted, and unpins it. -/
def pinEvicted (t : Nat) : List (Nat × Action (Fin 2) Nat) :=
  [(t, .pin .readPage), (t, .next), (t, .next), (t, .next), (t, .loadWord 0), (t, .loadWord 1),
    (t, .next), (t, .unpin), (t, .next)]

/-- What a read has returned. -/
def Phase.result : Phase ι ω → Option (List (ι × ω) × List (ι → ω))
  | .returned seen contents => some (seen, contents)
  | _ => none

/-- Thread 2 reads one word, thread 3 pins the page and writes the other one, and thread 2 reads that and then
both words again. -/
def disturbedRead : List (Nat × Action (Fin 2) Nat) :=
  (pinEvicted 1).append [(2, .read), (2, .next), (2, .readWord 0), (3, .pin .readPage), (3, .next), (3, .next),
    (3, .write 1 5), (3, .setDirty), (3, .unpin), (3, .next), (2, .readWord 1), (2, .next), (2, .next),
    (2, .readWord 0), (2, .readWord 1), (2, .next)]

theorem optimisticRead_atomic_disturbed :
    ∃ s contents, (State.init (twoWords 1 2)).run disturbedRead = some s ∧
      s.phase 2 = .returned [(0, 1), (1, 5)] contents ∧
      ∃ content ∈ contents, Matches [(0, 1), (1, 5)] content := by
  have hresult : (((State.init (twoWords 1 2)).run disturbedRead).bind fun s =>
      (s.phase 2).result.map (·.1)) = some [(0, 1), (1, 5)] := by
    decide +kernel
  obtain ⟨s, hrun, hphase⟩ := Option.bind_eq_some_iff.mp hresult
  obtain ⟨⟨_, contents⟩, hphase, rfl⟩ := Option.map_eq_some_iff.mp hphase
  have hreturned : s.phase 2 = .returned [(0, 1), (1, 5)] contents := by
    unfold Phase.result at hphase
    split at hphase
    · next heq =>
      cases hphase
      exact heq
    · cases hphase
  have halone : AllEvictAlone (State.init (twoWords 1 2)) disturbedRead :=
    allEvictAlone_of_no_evict (by decide +kernel) fun _ => rfl
  exact ⟨s, contents, hrun, hreturned,
    (optimisticRead_atomic_when (twoWords 1 2) disturbedRead s hrun).1 halone 2 _ _ hreturned⟩

/-- The thread marks the page and evicts it. -/
def markAndEvict (t : Nat) : List (Nat × Action (Fin 2) Nat) :=
  [(t, .mark), (t, .next), (t, .evict), (t, .next), (t, .next), (t, .next), (t, .next)]

/-- Thread 2 reads one word, the page is evicted and loaded again, and thread 2 reads the other word before
that. -/
def evictedRead : List (Nat × Action (Fin 2) Nat) :=
  pinEvicted 1 ++ [(2, .read), (2, .next), (2, .readWord 0)] ++ markAndEvict 3 ++ [(2, .readWord 1)] ++
    pinEvicted 1 ++ [(2, .next)]

/-- An eviction sets the version to zero, so that the word comes back and the read returns. Nobody has written
the page, but the read has seen a word of the released frame. -/
theorem optimisticRead_torn :
    (((State.init (twoWords 1 1)).run evictedRead).bind fun s => (s.phase 2).result) =
      some ([(0, 1), (1, 0)], replicate 20 (twoWords 1 1)) ∧
    ¬ ∃ content ∈ replicate 20 (twoWords 1 1), Matches [(0, 1), (1, 0)] content := by
  constructor
  · decide +kernel
  · rintro ⟨content, hmem, hmatches⟩
    rw [eq_of_mem_replicate hmem] at hmatches
    exact absurd (hmatches (1, 0) (by simp)) (by decide)

/-- While a thread has locked the page, no other one has, and no step of another one changes what is
shared. -/
theorem owner_excludes [DecidableEq ι] [Fintype ι] [DecidableEq ω] [Zero ω] (file : ι → ω)
    (steps : List (Nat × Action ι ω)) (s : State ι ω) (hrun : (State.init file).run steps = some s)
    (t : Nat) (ht : (s.phase t).role ≠ .none) :
    getState s.shared.word = lockedState ∧ ∀ t' ≠ t, (s.phase t').role = .none ∧
      ∀ a s', s.step t' a = some s' → s'.shared = s.shared := by
  have hinv := (inv_init file).run hrun
  have hlocked := (hinv.phases t).locked ht
  refine ⟨hlocked, fun t' hne => ?_⟩
  have hnone : (s.phase t').role = .none := by
    by_contra hrole
    exact hne (hinv.one t' t hrole ht)
  refine ⟨hnone, fun a s' hstep => ?_⟩
  obtain ⟨p', hthread, -⟩ := step_eq hstep
  exact ((moves_of_threadStep hthread).ok hinv.shared (hinv.phases t')).others hnone hlocked

/-- Thread 1 has locked the page and loads it, and threads 2 and 3 try to read it and to pin it. -/
def disturbedLoad : List (Nat × Action (Fin 2) Nat) :=
  ((pinEvicted 1).take 4).append
    [(2, .read), (2, .next), (3, .pin .readPage), (1, .loadWord 0), (3, .next), (2, .next)]

theorem owner_excludes_loader :
    ∃ s, (State.init (twoWords 1 2)).run disturbedLoad = some s ∧ getState s.shared.word = lockedState ∧
      (∀ t ∈ [2, 3], (s.phase t).role = .none) ∧
      ∀ t ∈ [2, 3], ∀ s', s.step t .next = some s' → s'.shared = s.shared := by
  have hrole : ((State.init (twoWords 1 2)).run disturbedLoad).map (fun s => (s.phase 1).role) =
      some .loader := by decide +kernel
  obtain ⟨s, hrun, hloader⟩ := Option.map_eq_some_iff.mp hrole
  obtain ⟨hlocked, hothers⟩ := owner_excludes _ _ s hrun 1 (by rw [hloader]; decide)
  have hne : ∀ t ∈ [2, 3], t ≠ 1 := by decide
  exact ⟨s, hrun, hlocked, fun t ht => (hothers t (hne t ht)).1, fun t ht => (hothers t (hne t ht)).2 .next⟩

end BufferManager
end CycleJoin
