import CycleJoin.Storage.BufferManager.Basic

/-!
# Owners of a page

A thread that has locked a page owns it: it loads it, holds it, or evicts it. Only the owner changes what is
shared while the page is locked.

* `Moves.ok`: what a step of a thread preserves.
* `Inv.run`: in every run one thread at most owns the page, and the content of the page is in the frame or in
  the file, as the state word says.
* `Moves.of_none`, `Moves.of_holder`, `Moves.of_evictor`, `Moves.of_flusher`: what a step does to the word.
-/

namespace CycleJoin
namespace BufferManager

variable {ι ω : Type}

/-! ## Owners -/

/-- What a thread that has locked the page does with it. -/
inductive Role where
  | none
  | loader
  | holder
  | evictor
  /-- An evictor that has flushed the page. -/
  | flusher
  deriving DecidableEq

def Phase.role : Phase ι ω → Role
  | .claiming _ | .loading _ => .loader
  | .holding _ _ | .unlocking _ _ => .holder
  | .evicting | .unlockingUnchanged _ => .evictor
  | .flushed | .released => .flusher
  | _ => .none

/-- The content of the page is in the frame, and in the file if the page is not dirty. -/
def Resident (sh : Shared ι ω) : Prop :=
  sh.frame = sh.page ∧ (isDirty sh.word = true ∨ sh.file = sh.page)

/-- What is shared when no thread owns the page. A page that has been unpinned has a version. -/
structure SharedOk (sh : Shared ι ω) : Prop where
  state : getState sh.word < 4
  evicted : getState sh.word = evictedState → getVersion sh.word = 0 ∧ sh.file = sh.page
  resident : getState sh.word = unlockedState ∨ getState sh.word = markedState →
    Resident sh ∧ 0 < getVersion sh.word

/-- What a thread knows: the words that it has loaded, and if it owns the page, where its content is. -/
def Phase.Ok (sh : Shared ι ω) : Phase ι ω → Prop
  | .pinLoaded _ w => getState w ≠ lockedState ∧ getState w < 4
  | .claiming _ | .loading _ =>
    getState sh.word = lockedState ∧ getVersion sh.word = 0 ∧ sh.file = sh.page
  | .holding pinner written =>
    getState sh.word = lockedState ∧ sh.frame = sh.page ∧
      (isDirty sh.word = true ∨ written = true ∨ sh.file = sh.page) ∧ (pinner = .reader → written = false)
  | .unlocking _ w => w = sh.word ∧ getState sh.word = lockedState ∧ Resident sh
  | .clearing w => getState w = markedState
  | .callback w _ => getState w = unlockedState
  | .marking w => getState w = unlockedState
  | .evictLoaded w => getState w = markedState
  | .evicting => getState sh.word = lockedState ∧ Resident sh ∧ 0 < getVersion sh.word
  | .unlockingUnchanged w =>
    w = sh.word ∧ getState sh.word = lockedState ∧ Resident sh ∧ 0 < getVersion sh.word
  | .flushed | .released => getState sh.word = lockedState ∧ sh.file = sh.page
  | .idle | .pinning _ | .reading | .returned _ _ => True

variable {p : Phase ι ω}

theorem Phase.Ok.locked {sh : Shared ι ω} (h : p.Ok sh) (hrole : p.role ≠ .none) :
    getState sh.word = lockedState := by
  cases p <;> first | exact absurd rfl hrole | exact h.1 | exact h.2.1

/-- A page that is loaded has no version yet. -/
theorem Phase.Ok.version_eq_zero {sh : Shared ι ω} (h : p.Ok sh) (hrole : p.role = .loader) :
    getVersion sh.word = 0 := by
  cases p <;> first | exact h.2.1 | cases hrole

/-- A thread that does not own the page knows nothing about what is shared. -/
theorem Phase.Ok.of_role_none {sh sh' : Shared ι ω} (h : p.Ok sh) (hrole : p.role = .none) : p.Ok sh' := by
  cases p <;> first | exact h | cases hrole

/-- The page is locked iff a step has to be that of its owner. -/
structure StepOk (sh sh' : Shared ι ω) (p p' : Phase ι ω) : Prop where
  shared : SharedOk sh'
  phase : p'.Ok sh'
  owner : p'.role ≠ .none → p.role ≠ .none ∨ getState sh.word ≠ lockedState
  others : p.role = .none → getState sh.word = lockedState → sh' = sh

section Shared

variable {sh sh' : Shared ι ω} {p p' : Phase ι ω}

theorem StepOk.same (hsh : SharedOk sh) (hp' : p'.Ok sh) (hrole : p'.role = .none) : StepOk sh sh p p' :=
  ⟨hsh, hp', fun h => absurd hrole h, fun _ _ => rfl⟩

theorem StepOk.ofOwner (hsh' : SharedOk sh') (hp' : p'.Ok sh') (hrole : p.role ≠ .none) : StepOk sh sh' p p' :=
  ⟨hsh', hp', fun _ => .inl hrole, fun h => absurd h hrole⟩

theorem StepOk.ofUnlocked (hsh' : SharedOk sh') (hp' : p'.Ok sh') (h : getState sh.word ≠ lockedState) :
    StepOk sh sh' p p' :=
  ⟨hsh', hp', fun _ => .inr h, fun _ hlocked => absurd hlocked h⟩

theorem sharedOk_of_locked (h : getState sh.word = lockedState) : SharedOk sh := by
  refine ⟨by rw [h]; decide, fun hevicted => ?_, fun hresident => ?_⟩
  · rw [h] at hevicted
    exact absurd hevicted (by decide)
  · rw [h] at hresident
    exact absurd hresident (by decide)

theorem sharedOk_of_resident {newState : Nat} (hnew : newState = unlockedState ∨ newState = markedState)
    (hres : Resident sh) (hpos : 0 < getVersion sh.word) :
    SharedOk { sh with word := updateStateWithSameVersion sh.word newState } := by
  refine ⟨?_, fun hevicted => ?_, fun _ => ?_⟩
  · rw [getState_updateStateWithSameVersion]
    obtain rfl | rfl := hnew <;> decide
  · rw [getState_updateStateWithSameVersion] at hevicted
    rw [hevicted] at hnew
    exact absurd hnew (by decide)
  · rw [getVersion_updateStateWithSameVersion]
    exact ⟨⟨hres.1, by rw [isDirty_updateStateWithSameVersion]; exact hres.2⟩, hpos⟩

theorem sharedOk_evicted (sh : Shared ι ω) (hfile : sh.file = sh.page) : SharedOk { sh with word := evictedWord } := by
  have hstate : getState evictedWord = evictedState := by decide
  refine ⟨?_, fun _ => ⟨?_, hfile⟩, fun hresident => ?_⟩
  · rw [hstate]
    decide
  · change getVersion evictedWord = 0
    decide
  · rw [hstate] at hresident
    exact absurd hresident (by decide)

theorem sharedOk_unlock (hres : Resident sh) : SharedOk { sh with word := unlockedWithNextVersion sh.word } := by
  obtain ⟨hunlocked, hversion, hdirty⟩ | hlocked := unlockedWithNextVersion_cases sh.word
  · refine ⟨?_, fun hevicted => ?_, fun _ => ⟨⟨hres.1, hres.2.imp_left hdirty⟩, ?_⟩⟩
    · rw [hunlocked]
      decide
    · rw [hunlocked] at hevicted
      exact absurd hevicted (by decide)
    · rw [hversion]
      exact Nat.succ_pos _
  · exact sharedOk_of_locked hlocked

theorem resident_lock (hres : Resident sh) (newState : Nat) :
    Resident { sh with word := updateStateWithSameVersion sh.word newState } :=
  ⟨hres.1, by rw [isDirty_updateStateWithSameVersion]; exact hres.2⟩

end Shared

section Step

/-- A phase in which a thread knows nothing. -/
def Phase.Quiet : Phase ι ω → Prop
  | .idle | .pinning _ | .reading => True
  | _ => False

section

variable [DecidableEq ι] [Zero ω] (contents : List (ι → ω)) (sh : Shared ι ω) (a : Action ι ω)

/-- What a step of a thread does. -/
inductive Moves : Phase ι ω → Phase ι ω → Shared ι ω → Prop
  | load {pinner} (h : getState sh.word ≠ lockedState) :
    Moves (.pinning pinner) (.pinLoaded pinner sh.word) sh
  | lockEvicted {pinner} (h : getState sh.word = evictedState) :
    Moves (.pinLoaded pinner sh.word) (.claiming pinner)
      { sh with word := updateStateWithSameVersion sh.word lockedState }
  | lockResident {pinner} (h : getState sh.word ≠ evictedState) :
    Moves (.pinLoaded pinner sh.word) (.holding pinner false)
      { sh with word := updateStateWithSameVersion sh.word lockedState }
  | claimFails {pinner} : Moves (.claiming pinner) .idle { sh with word := evictedWord }
  | claimUnread : Moves (.claiming (.user .dontReadPage)) (.holding (.user .dontReadPage) true)
      { sh with word := clearDirty sh.word, page := sh.frame }
  | claim {pinner} : Moves (.claiming pinner) (.loading pinner) { sh with word := clearDirty sh.word }
  | loadWord {pinner} (i : ι) : Moves (.loading pinner) (.loading pinner)
      { sh with frame := Function.update sh.frame i (sh.file i) }
  | loaded {pinner} (h : sh.frame = sh.file) : Moves (.loading pinner) (.holding pinner false) sh
  | write {policy written} (i : ι) (x : ω) :
    Moves (.holding (.user policy) written) (.holding (.user policy) true)
      { sh with frame := Function.update sh.frame i x, page := Function.update sh.page i x }
  | setDirty {policy written} : Moves (.holding (.user policy) written) (.holding (.user policy) written)
      { sh with word := setDirty sh.word }
  | unpin {policy written} (h : ¬ (written && !isDirty sh.word) = true) :
    Moves (.holding (.user policy) written) (.unlocking (.user policy) sh.word) sh
  | unpinReader {written} : Moves (.holding .reader written) (.unlocking .reader sh.word) sh
  | unlock {pinner w p'} (hp' : p'.Quiet) : Moves (.unlocking pinner w) p'
      { sh with word := unlockedWithNextVersion w }
  | callback (h : getState sh.word = unlockedState) : Moves .reading (.callback sh.word []) sh
  | readWord {w seen} (i : ι) : Moves (.callback w seen) (.callback w (seen ++ [(i, sh.frame i)])) sh
  | return {seen} : Moves (.callback sh.word seen) (.returned seen contents) sh
  | toClear (h : getState sh.word = markedState) : Moves .reading (.clearing sh.word) sh
  | clear : Moves (.clearing sh.word) .reading
      { sh with word := updateStateWithSameVersion sh.word unlockedState }
  | toMark (h : getState sh.word = unlockedState) : Moves .idle (.marking sh.word) sh
  | mark : Moves (.marking sh.word) .idle { sh with word := updateStateWithSameVersion sh.word markedState }
  | toEvict (ha : a = .evict) (h : getState sh.word = markedState) : Moves .idle (.evictLoaded sh.word) sh
  | lockMarked : Moves (.evictLoaded sh.word) .evicting
      { sh with word := updateStateWithSameVersion sh.word lockedState }
  | candidateGone : Moves .evicting (.unlockingUnchanged sh.word) sh
  | unlockUnchanged {w} : Moves (.unlockingUnchanged w) .idle
      { sh with word := updateStateWithSameVersion w unlockedState }
  | flush : Moves .evicting .flushed { sh with file := sh.frame, word := clearDirty sh.word }
  | clean (h : ¬ isDirty sh.word = true) : Moves .evicting .flushed sh
  | release : Moves .flushed .released { sh with frame := fun _ => 0 }
  | evict : Moves .released .idle { sh with word := evictedWord }
  | quiet {p p'} (hp : p.role = .none) (hp' : p'.Quiet) : Moves p p' sh

end

variable [DecidableEq ι] [Zero ω] {contents : List (ι → ω)} {sh sh' : Shared ι ω} {p p' : Phase ι ω}
  {a : Action ι ω}

theorem moves_of_threadStep [Fintype ι] [DecidableEq ω]
    (h : threadStep contents sh p a = some (p', sh')) : Moves contents sh a p p' sh' := by
  unfold threadStep nextOperation at h
  repeat' split at h
  all_goals cases h
  all_goals subst_vars
  all_goals first
    | exact .quiet rfl trivial
    | constructor <;> first | assumption | trivial

omit [DecidableEq ι] [Zero ω] in
theorem Phase.Quiet.ok (h : p.Quiet) : p.Ok sh := by cases p <;> trivial

omit [DecidableEq ι] [Zero ω] in
theorem Phase.Quiet.role_eq (h : p.Quiet) : p.role = .none := by cases p <;> first | rfl | cases h

section
variable (h : Moves contents sh a p p' sh')
include h

theorem Moves.ok (hsh : SharedOk sh) (hp : p.Ok sh) : StepOk sh sh' p p' := by
  have hlock := getState_updateStateWithSameVersion (w := sh.word) lockedState
  cases h with
  | load hunlocked => exact .same hsh ⟨hunlocked, hsh.state⟩ rfl
  | lockEvicted hevicted =>
    obtain ⟨hzero, hfile⟩ := hsh.evicted hevicted
    refine .ofUnlocked (sharedOk_of_locked hlock) ⟨hlock, ?_, hfile⟩ hp.1
    rw [getVersion_updateStateWithSameVersion]
    exact hzero
  | lockResident hresident =>
    obtain ⟨hnot, hlt⟩ := hp
    have hstate : getState sh.word = unlockedState ∨ getState sh.word = markedState := by
      unfold unlockedState markedState
      unfold lockedState at hnot
      unfold evictedState at hresident
      omega
    obtain ⟨hframe, hfile⟩ := resident_lock (hsh.resident hstate).1 lockedState
    exact .ofUnlocked (sharedOk_of_locked hlock) ⟨hlock, hframe, hfile.imp_right .inr, fun _ => rfl⟩ hnot
  | claimFails => exact .ofOwner (sharedOk_evicted sh hp.2.2) trivial (fun h => nomatch h)
  | claimUnread =>
    obtain ⟨hlocked, hzero, -⟩ := hp
    rw [clearDirty_eq_self hzero]
    exact .ofOwner (sharedOk_of_locked hlocked) ⟨hlocked, rfl, .inr (.inl rfl), fun h => nomatch h⟩
      (fun h => nomatch h)
  | claim =>
    obtain ⟨hlocked, hzero, hfile⟩ := hp
    rw [clearDirty_eq_self hzero]
    exact .ofOwner (sharedOk_of_locked hlocked) ⟨hlocked, hzero, hfile⟩ (fun h => nomatch h)
  | loadWord i => exact .ofOwner (sharedOk_of_locked hp.1) ⟨hp.1, hp.2.1, hp.2.2⟩ (fun h => nomatch h)
  | loaded hloaded =>
    obtain ⟨hlocked, -, hfile⟩ := hp
    exact .ofOwner hsh ⟨hlocked, hloaded.trans hfile, .inr (.inr hfile), fun _ => rfl⟩ (fun h => nomatch h)
  | write i x =>
    obtain ⟨hlocked, hframe, -, -⟩ := hp
    refine .ofOwner (sharedOk_of_locked hlocked) ⟨hlocked, ?_, .inr (.inl rfl), fun h => nomatch h⟩
      (fun h => nomatch h)
    simp [hframe]
  | setDirty =>
    obtain ⟨hlocked, hframe, -, -⟩ := hp
    have hlocked' : getState (BufferManager.setDirty sh.word) = lockedState := getState_setDirty.trans hlocked
    exact .ofOwner (sharedOk_of_locked hlocked')
      ⟨hlocked', hframe, .inl isDirty_setDirty, fun h => nomatch h⟩ (fun h => nomatch h)
  | @unpin policy written hdirty =>
    obtain ⟨hlocked, hframe, hfile, -⟩ := hp
    refine .ofOwner hsh ⟨rfl, hlocked, hframe, ?_⟩ (fun h => nomatch h)
    cases hd : isDirty sh.word with
    | true => exact .inl rfl
    | false =>
      have hwritten : written = false := by simpa [hd] using hdirty
      simpa [hd, hwritten] using hfile
  | unpinReader =>
    obtain ⟨hlocked, hframe, hfile, hreader⟩ := hp
    refine .ofOwner hsh ⟨rfl, hlocked, hframe, ?_⟩ (fun h => nomatch h)
    simpa [hreader rfl] using hfile
  | unlock hp' =>
    obtain ⟨rfl, -, hres⟩ := hp
    exact .ofOwner (sharedOk_unlock hres) hp'.ok (fun h => nomatch h)
  | callback hstate | toClear hstate | toMark hstate | toEvict _ hstate => exact .same hsh hstate rfl
  | readWord i => exact .same hsh hp rfl
  | «return» => exact .same hsh trivial rfl
  | clear =>
    obtain ⟨hres, hpos⟩ := hsh.resident (.inr hp)
    refine .ofUnlocked (sharedOk_of_resident (.inl rfl) hres hpos) trivial ?_
    rw [show getState sh.word = markedState from hp]
    decide
  | mark =>
    obtain ⟨hres, hpos⟩ := hsh.resident (.inl hp)
    refine .ofUnlocked (sharedOk_of_resident (.inr rfl) hres hpos) trivial ?_
    rw [show getState sh.word = unlockedState from hp]
    decide
  | lockMarked =>
    obtain ⟨hres, hpos⟩ := hsh.resident (.inr hp)
    refine .ofUnlocked (sharedOk_of_locked hlock) ⟨hlock, resident_lock hres lockedState, ?_⟩ ?_
    · rw [getVersion_updateStateWithSameVersion]
      exact hpos
    · rw [show getState sh.word = markedState from hp]
      decide
  | candidateGone => exact .ofOwner hsh ⟨rfl, hp.1, hp.2⟩ (fun h => nomatch h)
  | unlockUnchanged =>
    obtain ⟨rfl, -, hres, hpos⟩ := hp
    exact .ofOwner (sharedOk_of_resident (.inl rfl) hres hpos) trivial (fun h => nomatch h)
  | flush =>
    have hlocked : getState (clearDirty sh.word) = lockedState := getState_clearDirty.trans hp.1
    exact .ofOwner (sharedOk_of_locked hlocked) ⟨hlocked, hp.2.1.1⟩ (fun h => nomatch h)
  | clean hclean => exact .ofOwner hsh ⟨hp.1, hp.2.1.2.resolve_left hclean⟩ (fun h => nomatch h)
  | release => exact .ofOwner (sharedOk_of_locked hp.1) hp (fun h => nomatch h)
  | evict => exact .ofOwner (sharedOk_evicted sh hp.2) trivial (fun h => nomatch h)
  | quiet hnone hp' => exact .same hsh hp'.ok hp'.role_eq

/-! ## What each owner does to the word -/

theorem Moves.of_none (hrole : p.role = .none) : (sh' = sh ∧ p'.role = .none) ∨ getState sh.word = evictedState ∨
    (sh'.frame = sh.frame ∧ getVersion sh'.word = getVersion sh.word ∧
      ((p'.role = .none ∧ (getState sh'.word = unlockedState ∨ getState sh'.word = markedState)) ∨
        (getState sh'.word = lockedState ∧ (p'.role = .holder ∨ p'.role = .evictor)))) := by
  have hversion := getVersion_updateStateWithSameVersion (w := sh.word)
  have hstate := getState_updateStateWithSameVersion (w := sh.word)
  cases h with
  | lockEvicted hevicted => exact .inr (.inl hevicted)
  | lockResident => exact .inr (.inr ⟨rfl, hversion _, .inr ⟨hstate _, .inl rfl⟩⟩)
  | lockMarked => exact .inr (.inr ⟨rfl, hversion _, .inr ⟨hstate _, .inr rfl⟩⟩)
  | clear => exact .inr (.inr ⟨rfl, hversion _, .inl ⟨rfl, .inl (hstate _)⟩⟩)
  | mark => exact .inr (.inr ⟨rfl, hversion _, .inl ⟨rfl, .inr (hstate _)⟩⟩)
  | quiet _ hp' => exact .inl ⟨rfl, hp'.role_eq⟩
  | load | callback | readWord | «return» | toClear | toMark | toEvict => exact .inl ⟨rfl, rfl⟩
  | _ => cases hrole

theorem Moves.of_holder (hp : p.Ok sh) (hrole : p.role = .holder) :
    (p'.role = .holder ∧ getVersion sh.word ≤ getVersion sh'.word) ∨
      (p'.role = .none ∧ sh'.word = unlockedWithNextVersion sh.word) := by
  cases h with
  | write | unpin | unpinReader => exact .inl ⟨rfl, Nat.le_refl _⟩
  | setDirty => exact .inl ⟨rfl, getVersion_le_setDirty⟩
  | unlock hp' =>
    obtain ⟨rfl, -⟩ := hp
    exact .inr ⟨hp'.role_eq, rfl⟩
  | quiet hnone =>
    rw [hnone] at hrole
    cases hrole
  | _ => cases hrole

theorem Moves.of_evictor (hp : p.Ok sh) (hrole : p.role = .evictor) :
    p'.role = .flusher ∨ (p'.role = .evictor ∧ sh' = sh) ∨
      (p'.role = .none ∧ sh'.frame = sh.frame ∧ getVersion sh'.word = getVersion sh.word ∧
        getState sh'.word = unlockedState) := by
  cases h with
  | flush | clean => exact .inl rfl
  | candidateGone => exact .inr (.inl ⟨rfl, rfl⟩)
  | unlockUnchanged =>
    obtain ⟨rfl, -⟩ := hp
    exact .inr (.inr ⟨rfl, rfl, getVersion_updateStateWithSameVersion _, getState_updateStateWithSameVersion _⟩)
  | quiet hnone =>
    rw [hnone] at hrole
    cases hrole
  | _ => cases hrole

theorem Moves.of_flusher (hrole : p.role = .flusher) (hnot : p ≠ .released) : p'.role = .flusher := by
  cases h with
  | release => rfl
  | evict => exact absurd rfl hnot
  | quiet hnone =>
    rw [hnone] at hrole
    cases hrole
  | _ => cases hrole

end

/-! ## All threads -/

/-- What holds in every run: one thread at most owns the page, and the content of the page is where the state
word says. -/
structure Inv (s : State ι ω) : Prop where
  shared : SharedOk s.shared
  phases : ∀ t, (s.phase t).Ok s.shared
  one : ∀ t t', (s.phase t).role ≠ .none → (s.phase t').role ≠ .none → t = t'

omit [DecidableEq ι] in
theorem inv_init (file : ι → ω) : Inv (State.init file) where
  shared := sharedOk_evicted (State.init file).shared rfl
  phases _ := trivial
  one _ _ h := absurd rfl h

variable [Fintype ι] [DecidableEq ω] {s s' : State ι ω}

theorem step_eq {t : Nat} (h : s.step t a = some s') :
    ∃ p', threadStep (s.contents t) s.shared (s.phase t) a = some (p', s'.shared) ∧
      s'.phase = Function.update s.phase t p' ∧ s'.contents = observe s t a s'.shared.page := by
  obtain ⟨⟨p', sh'⟩, hstep, rfl⟩ := Option.map_eq_some_iff.mp h
  exact ⟨p', hstep, rfl, rfl⟩

theorem Inv.step {t : Nat} (hinv : Inv s) (h : s.step t a = some s') : Inv s' := by
  obtain ⟨p', hstep, hphase, -⟩ := step_eq h
  obtain ⟨hshared, hp', howner, hothers⟩ := (moves_of_threadStep hstep).ok hinv.shared (hinv.phases t)
  have hne {t' : Nat} (ht' : t' ≠ t) : s'.phase t' = s.phase t' := by
    rw [hphase, Function.update_of_ne ht']
  have hself : s'.phase t = p' := by rw [hphase, Function.update_self]
  -- If another thread owns the page, the step has been made without it.
  have howned {t' : Nat} (ht' : t' ≠ t) (hrole : (s.phase t').role ≠ .none) : p'.role = .none := by
    by_contra hp
    have hlocked := (hinv.phases t').locked hrole
    exact (howner hp).elim (fun hown => ht' (hinv.one t' t hrole hown)) fun hnot => hnot hlocked
  refine ⟨hshared, fun t' => ?_, fun t₁ t₂ h₁ h₂ => ?_⟩
  · by_cases ht' : t' = t
    · rw [ht', hself]
      exact hp'
    · rw [hne ht']
      by_cases hrole : (s.phase t').role = .none
      · exact (hinv.phases t').of_role_none hrole
      · have hnone : (s.phase t).role = .none := by
          by_contra hown
          exact ht' (hinv.one t' t hrole hown)
        rw [hothers hnone ((hinv.phases t').locked hrole)]
        exact hinv.phases t'
  · by_cases ht₁ : t₁ = t <;> by_cases ht₂ : t₂ = t
    · rw [ht₁, ht₂]
    · rw [hne ht₂] at h₂
      rw [ht₁, hself] at h₁
      exact absurd (howned ht₂ h₂) h₁
    · rw [hne ht₁] at h₁
      rw [ht₂, hself] at h₂
      exact absurd (howned ht₁ h₁) h₂
    · rw [hne ht₁] at h₁
      rw [hne ht₂] at h₂
      exact hinv.one t₁ t₂ h₁ h₂

theorem Inv.run {steps : List (Nat × Action ι ω)} (hinv : Inv s) (h : s.run steps = some s') : Inv s' := by
  induction steps generalizing s with
  | nil =>
    cases h
    exact hinv
  | cons step steps ih =>
    obtain ⟨s₁, hstep, hrun⟩ := Option.bind_eq_some_iff.mp h
    exact ih (hinv.step hstep) hrun

end Step

end BufferManager
end CycleJoin
