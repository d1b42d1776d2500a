import Converge.Fleet.Record
import Converge.Proofs.Scopes

/-!
# What a move does

Every move that can be made is one of a few cases, each with the stage that it needs and the state
that it leads to.  What all states of a run have in common is derived from these cases.
-/

namespace Converge.Fleet

variable {Q : Type} {A : Q → Type} {R : Type}

/-- Under whatever name, an outcome is a failure or it is none. -/
theorem Outcome.isSome_failure? (o : Outcome) (name name' : String) :
    (o.failure? name).isSome = (o.failure? name').isSome := by
  cases o with
  | crashed task how => rfl
  | returned r =>
      cases r with
      | ok tally => rfl
      | error f => cases hf : f.isCancellation <;> simp [failure?, result, hf]

namespace State

/-! ## Parts of a state -/

section Parts

variable (s : State Q A R) (i : Nat) (g : Stage Q A R) (o : Outcome) (u : Setup Q A R)

@[simp] theorem isCancelled_setStage : (s.setStage i g).isCancelled = s.isCancelled := rfl
@[simp] theorem isCancelled_record (d : Deed Q A R) :
    (s.record d).isCancelled = s.isCancelled := rfl
@[simp] theorem isCancelled_mark (ms : List (Mark R)) :
    (s.mark i ms).isCancelled = s.isCancelled := rfl
@[simp] theorem isCancelled_begin : (s.begin u i).isCancelled = s.isCancelled := rfl

@[simp] theorem isCancelled_release : (s.release i).isCancelled = s.isCancelled := by
  unfold release; split <;> rfl
@[simp] theorem scopes_release : (s.release i).scopes = s.scopes := by
  unfold release; split <;> rfl
@[simp] theorem shared_release : (s.release i).shared = s.shared := by
  unfold release; split <;> rfl
@[simp] theorem closed_release : (s.release i).closed = s.closed := by
  unfold release; split <;> rfl
@[simp] theorem history_release : (s.release i).history = .released i :: s.history := by
  unfold release; split <;> rfl
@[simp] theorem line_release : (s.release i).line = s.line.tail := by
  unfold release; split <;> simp_all [record, setStage]
@[simp] theorem stages_release :
    (s.release i).stages = s.line.head?.elim s.stages fun j => s.stages.set j .admitted := by
  unfold release; split <;> simp_all [record, setStage]

@[simp] theorem nameOf_setStage : (s.setStage i g).nameOf u = s.nameOf u := rfl
@[simp] theorem nameOf_record (d : Deed Q A R) : (s.record d).nameOf u = s.nameOf u := rfl
@[simp] theorem names_release : (s.release i).names = s.names := by
  unfold release; split <;> rfl

@[simp] theorem stages_account : (s.account u i o).stages = s.stages := by
  simp only [account]; repeat' split
  all_goals rfl
@[simp] theorem names_account : (s.account u i o).names = s.names.erase (u.task i) := by
  simp only [account]; repeat' split
  all_goals rfl
@[simp] theorem line_account : (s.account u i o).line = s.line := by
  simp only [account]; repeat' split
  all_goals rfl
@[simp] theorem closed_account : (s.account u i o).closed = s.closed := by
  simp only [account]; repeat' split
  all_goals rfl
@[simp] theorem shared_account : (s.account u i o).shared = s.shared := by
  simp only [account]; repeat' split
  all_goals rfl

theorem failure_account :
    (s.account u i o).failure = s.failure.or (o.failure? (s.nameOf u i)) := by
  cases hr : o.result (s.nameOf u i) with
  | ok tally => simp [account, Outcome.failure?, hr, strike]
  | error f =>
      cases hf : f.isCancellation
      · simp only [account, Outcome.failure?, hr, hf, cancelShared, record, strike]
        cases s.failure <;> rfl
      · simp [account, Outcome.failure?, hr, hf, record, strike]

theorem cancellation_account :
    (s.account u i o).cancellation = s.cancellation.or (o.cancellation? (s.nameOf u i)) := by
  cases hr : o.result (s.nameOf u i) with
  | ok tally => simp [account, Outcome.cancellation?, hr, strike]
  | error f =>
      cases hf : f.isCancellation
      · simp only [account, Outcome.cancellation?, hr, hf, cancelShared, record, strike]
        cases s.failure <;> simp
      · simp [account, Outcome.cancellation?, hr, hf, record, strike]

/-- A failure has the shared scope cancelled when it is taken into account, under whatever
name. -/
theorem scopes_account (name : String) : (s.account u i o).scopes =
    if (o.failure? name).isSome then s.scopes.cancel s.shared else s.scopes := by
  rw [o.isSome_failure? name (s.nameOf u i)]
  cases hr : o.result (s.nameOf u i) with
  | ok tally => simp [account, Outcome.failure?, hr, strike]
  | error f =>
      cases hf : f.isCancellation
      · simp only [account, Outcome.failure?, hr, hf, cancelShared, record, strike]
        cases s.failure <;> rfl
      · simp [account, Outcome.failure?, hr, hf, record, strike]

/-- What is written down about an outcome is no deed of a job. -/
theorem history_account : ∃ ds : List (Deed Q A R),
    (s.account u i o).history = ds ++ s.history ∧ ∀ d ∈ ds, d.job? = none := by
  simp only [account]
  repeat' split
  · exact ⟨[], rfl, by simp⟩
  · exact ⟨[.event _], rfl, by simp [Deed.job?]⟩
  · exact ⟨[.event _, .cancelled], rfl, by simp [Deed.job?]⟩
  · exact ⟨[.event _, .cancelled], rfl, by simp [Deed.job?]⟩

end Parts

end State

/-! ## The cases of a move -/

/-- What the moves do, case by case. -/
inductive Moved (u : Setup Q A R) (s : State Q A R) : Move Q A → State Q A R → Prop
  | pass {i : Nat} (hi : s.stages[i]? = some .fresh) (hb : s.isCancelled = false) :
      Moved u s (.look i) (s.setStage i .entering)
  | turnAway {i : Nat} (hi : s.stages[i]? = some .fresh) (hb : s.isCancelled = true) :
      Moved u s (.look i) (s.setStage i (.ended State.notStarted))
  | giveUp {i : Nat} (hi : s.stages[i]? = some .waiting) (hb : s.isCancelled = true) :
      Moved u s (.look i)
        ({ s with line := s.line.erase i }.setStage i (.ended State.notStarted))
  | handOn {i : Nat} (hi : s.stages[i]? = some .admitted) (hb : s.isCancelled = true) :
      Moved u s (.look i) ((s.setStage i (.ended State.notStarted)).release i)
  | takeUp {i : Nat} (hi : s.stages[i]? = some .admitted) (hb : s.isCancelled = false) :
      Moved u s (.look i) (s.begin u i)
  | enter {i : Nat} (hi : s.stages[i]? = some .entering) (hfree : 0 < s.free) :
      Moved u s (.enter i) ({ s with free := s.free - 1 }.begin u i)
  | queue {i : Nat} (hi : s.stages[i]? = some .entering) (hfree : s.free = 0) :
      Moved u s (.enter i) ({ s with line := s.line ++ [i] }.setStage i .waiting)
  | finish {i : Nat} {r : Except Fault Tally} (hi : s.stages[i]? = some (.working (.done r))) :
      Moved u s (.goOn i)
        ((if (Outcome.returned r).isFault then s.cancelShared else s).setStage i
          (.leaving (.returned r)))
  | ask {i : Nat} {q : Q} {next : A q → Course Q A R (Except Fault Tally)}
      (hi : s.stages[i]? = some (.working (.ask q next))) :
      Moved u s (.goOn i) ((s.setStage i (.asking q next)).record (.asked i q))
  | pace {i : Nat} {c : Course Q A R (Except Fault Tally)}
      (hi : s.stages[i]? = some (.working c)) :
      Moved u s (.goOn i)
        ((s.setStage i (.working (c.pace s.isCancelled).2)).mark i (c.pace s.isCancelled).1)
  | reply {i : Nat} {q : Q} {next : A q → Course Q A R (Except Fault Tally)}
      {answer : (q : Q) → A q} (hi : s.stages[i]? = some (.asking q next)) :
      Moved u s (.reply i answer)
        ((s.setStage i (.working (next (answer q)))).record (.step i (.answered q (answer q))))
  | disturb {i : Nat} {q : Q} {next : A q → Course Q A R (Except Fault Tally)}
      (hi : s.stages[i]? = some (.asking q next)) (hb : s.isCancelled = false) :
      Moved u s (.disturb i) s.cancelShared
  | crash {i : Nat} {q : Q} {next : A q → Course Q A R (Except Fault Tally)} {how : String}
      (hi : s.stages[i]? = some (.asking q next)) :
      Moved u s (.crash i how) (s.setStage i (.leaving (.crashed (u.task i) how)))
  | leave {i : Nat} {o : Outcome} (hi : s.stages[i]? = some (.leaving o)) :
      Moved u s (.leave i) ((s.setStage i (.ended o)).release i)
  | join {i : Nat} {o : Outcome} (hi : s.stages[i]? = some (.ended o)) :
      Moved u s (.join i)
        (((s.setStage i (.joined o)).record (.joined i o)).account u i o)
  | cancel {k : Nat} (hk : k < s.shared) (hb : s.scopes.cancelled k = false) :
      Moved u s (.cancel k) { s with scopes := s.scopes.cancel k }
  | close (hall : s.stages.all Stage.isJoined = true) (hc : s.closed = false) :
      Moved u s .close { s.cancelShared with closed := true }

/-- A move that can be made is one of the cases. -/
theorem moved_of_move? {u : Setup Q A R} {s t : State Q A R} {m : Move Q A}
    (h : s.move? u m = some t) : Moved u s m t := by
  cases m with
  | look i =>
      simp only [State.move?] at h
      split at h <;> rename_i hi
      · cases hb : s.isCancelled <;> simp only [hb, Option.some.injEq] at h <;> subst h
        · exact .pass hi hb
        · exact .turnAway hi hb
      · cases hb : s.isCancelled <;> simp [hb] at h
        exact h ▸ .giveUp hi hb
      · cases hb : s.isCancelled <;> simp [hb] at h <;> subst h
        · exact .takeUp hi hb
        · exact .handOn hi hb
      · cases h
  | enter i =>
      simp only [State.move?] at h
      split at h <;> rename_i hi
      · split at h <;> rename_i hfree <;> cases h
        · exact .enter hi hfree
        · exact .queue hi (Nat.eq_zero_of_not_pos hfree)
      · cases h
  | goOn i =>
      simp only [State.move?] at h
      split at h <;> rename_i hi
      · rename_i c
        cases c with
        | done r => exact Option.some.inj h ▸ .finish hi
        | ask q next => exact Option.some.inj h ▸ .ask hi
        | look next => exact Option.some.inj h ▸ .pace hi
        | leave mk next => exact Option.some.inj h ▸ .pace hi
      · cases h
  | reply i answer =>
      simp only [State.move?] at h
      split at h <;> rename_i hi <;> cases h
      exact .reply hi
  | disturb i =>
      simp only [State.move?] at h
      split at h <;> rename_i hi
      · cases hb : s.isCancelled <;> simp [hb] at h
        exact h ▸ .disturb hi hb
      · cases h
  | crash i how =>
      simp only [State.move?] at h
      split at h <;> rename_i hi <;> cases h
      exact .crash hi
  | leave i =>
      simp only [State.move?] at h
      split at h <;> rename_i hi <;> cases h
      exact .leave hi
  | join i =>
      simp only [State.move?] at h
      split at h <;> rename_i hi <;> cases h
      exact .join hi
  | cancel k =>
      simp only [State.move?] at h
      split at h <;> rename_i hk <;> cases h
      simp only [Bool.and_eq_true, decide_eq_true_eq, Bool.not_eq_true'] at hk
      exact .cancel hk.1 hk.2
  | close =>
      simp only [State.move?] at h
      split at h <;> rename_i hc <;> cases h
      simp only [Bool.and_eq_true, Bool.not_eq_true'] at hc
      exact .close hc.1 hc.2

/-! ## What all states of a run have in common -/

/-- Several moves lead to a state that the run can come to. -/
theorem reachable_moves? {u : Setup Q A R} {first s t : State Q A R} (h : Reachable u first s)
    {ms : List (Move Q A)} (ht : s.moves? u ms = some t) : Reachable u first t := by
  induction ms generalizing s with
  | nil => exact Option.some.inj ht ▸ h
  | cons m ms ih =>
      obtain ⟨r, hr, ht⟩ := Option.bind_eq_some_iff.mp ht
      exact ih (h.move m hr) ht

theorem Reachable.trans {u : Setup Q A R} {r s t : State Q A R} (h : Reachable u r s)
    (h' : Reachable u s t) : Reachable u r t := by
  induction h' with
  | start => exact h
  | move m _ hm ih => exact ih.move m hm

/-- The stages belong to the jobs, the shared scope holds a token, and the line holds the jobs
that wait for a permit, each of them once. -/
structure State.Sound (u : Setup Q A R) (s : State Q A R) : Prop where
  length : s.stages.length = u.jobs.length
  token : s.scopes.HasToken s.shared
  nodup : s.line.Nodup
  inLine : ∀ i, i ∈ s.line ↔ s.stages[i]? = some .waiting

theorem sound_start (u : Setup Q A R) (scopes : Scopes) (caller : Nat) :
    (start u scopes caller).Sound u where
  length := by simp [start]
  token := scopes.hasToken_child caller
  nodup := List.nodup_nil
  inLine := fun i => by
    constructor
    · intro hi
      cases hi
    · intro hi
      rw [start, List.getElem?_map, Option.map_eq_some_iff] at hi
      obtain ⟨_, -, hfresh⟩ := hi
      cases hfresh

namespace State

variable {u : Setup Q A R} {s t : State Q A R}

/-- The place of a job that stands at some stage is one of the places. -/
theorem lt_of_stage {i : Nat} {g : Stage Q A R} (hi : s.stages[i]? = some g) :
    i < s.stages.length := (List.getElem?_eq_some_iff.mp hi).1

theorem isCancelled_cancelShared (hs : s.Sound u) : s.cancelShared.isCancelled = true :=
  Scopes.cancelled_cancel_self hs.token

/-- A job that was not in line moves to a stage at which it does not wait. -/
theorem Sound.setStage (hs : s.Sound u) {i : Nat} {g g' : Stage Q A R}
    (hi : s.stages[i]? = some g) (hg : g ≠ .waiting) (hg' : g' ≠ .waiting) :
    (s.setStage i g').Sound u where
  length := by simpa [State.setStage] using hs.length
  token := hs.token
  nodup := hs.nodup
  inLine := fun j => by
    have hlt := lt_of_stage hi
    simp only [State.setStage, hs.inLine j, List.getElem?_set]
    by_cases hij : i = j
    · subst hij
      rw [hi]
      simp [hlt, hg, hg']
    · simp [hij]

/-- The head of the line is let go on with a permit. -/
theorem Sound.release (hs : s.Sound u) (i : Nat) : (s.release i).Sound u where
  length := by
    rw [stages_release]
    cases s.line.head? <;> simp [hs.length]
  token := by simpa using hs.token
  nodup := by simpa using hs.nodup.sublist (List.tail_sublist _)
  inLine := fun j => by
    rw [line_release, stages_release]
    have hnodup := hs.nodup
    have hline := hs.inLine
    cases hl : s.line with
    | nil => simpa [hl] using hline j
    | cons k rest =>
        have hk : k < s.stages.length := lt_of_stage ((hline k).mp (by simp [hl]))
        simp only [hl, List.nodup_cons, List.mem_cons] at hnodup hline
        simp only [List.tail_cons, List.head?_cons, Option.elim_some, List.getElem?_set]
        by_cases hkj : k = j
        · subst hkj
          simp [hk, hnodup.1]
        · simp [hkj, ← hline j, Ne.symm hkj]

/-- Only the stages, the line and the scopes count for soundness. -/
theorem Sound.congr (hs : s.Sound u) (hstages : t.stages = s.stages) (hline : t.line = s.line)
    (htoken : t.scopes.HasToken t.shared) : t.Sound u where
  length := by rw [hstages, hs.length]
  token := htoken
  nodup := by rw [hline]; exact hs.nodup
  inLine := fun i => by rw [hline, hstages]; exact hs.inLine i

theorem Sound.cancelShared (hs : s.Sound u) : s.cancelShared.Sound u :=
  hs.congr rfl rfl ((Scopes.hasToken_cancel _ _ _).mpr hs.token)

theorem Sound.account (hs : s.Sound u) (i : Nat) (o : Outcome) : (s.account u i o).Sound u := by
  refine hs.congr (stages_account ..) (line_account ..) ?_
  rw [shared_account, scopes_account s i o u (u.unit i)]
  split
  · exact (Scopes.hasToken_cancel _ _ _).mpr hs.token
  · exact hs.token

end State

namespace Moved

variable {u : Setup Q A R} {s t : State Q A R} {m : Move Q A}

/-- Every move keeps a state sound. -/
theorem sound (h : Moved u s m t) (hs : s.Sound u) : t.Sound u := by
  cases h with
  | pass hi | turnAway hi | takeUp hi | ask hi | pace hi | reply hi | crash hi =>
      exact (hs.setStage hi (by simp) (by simp)).congr rfl rfl hs.token
  | enter hi => exact (hs.setStage hi (by simp) (by simp)).congr rfl rfl hs.token
  | handOn hi | leave hi => exact (hs.setStage hi (by simp) (by simp)).release _
  | @join i o hi =>
      have hset : (s.setStage i (.joined o)).Sound u := hs.setStage hi (by simp) (by simp)
      exact State.Sound.account (s := (s.setStage i (.joined o)).record (.joined i o))
        (hset.congr rfl rfl hs.token) i o
  | finish hi =>
      split
      · exact hs.cancelShared.setStage hi (by simp) (by simp)
      · exact hs.setStage hi (by simp) (by simp)
  | disturb => exact hs.cancelShared
  | cancel => exact hs.congr rfl rfl ((Scopes.hasToken_cancel _ _ _).mpr hs.token)
  | close => exact hs.cancelShared.congr rfl rfl hs.cancelShared.token
  | @giveUp i hi =>
      have hlt := State.lt_of_stage hi
      refine ⟨by simpa [State.setStage] using hs.length, hs.token, hs.nodup.erase i, fun j => ?_⟩
      simp only [State.setStage, hs.nodup.mem_erase_iff, hs.inLine j, List.getElem?_set]
      by_cases hij : i = j
      · subst hij
        simp [hlt]
      · simp [hij, Ne.symm hij]
  | @queue i hi =>
      have hlt := State.lt_of_stage hi
      have hnot : i ∉ s.line := fun hmem => by
        have := (hs.inLine i).mp hmem
        simp [hi] at this
      refine ⟨by simpa [State.setStage] using hs.length, hs.token, ?_, fun j => ?_⟩
      · refine List.nodup_append.mpr ⟨hs.nodup, by simp, fun j hj k hk => ?_⟩
        exact List.mem_singleton.mp hk ▸ ne_of_mem_of_not_mem hj hnot
      · simp only [State.setStage, List.mem_append, List.mem_singleton, hs.inLine j,
          List.getElem?_set]
        by_cases hij : i = j
        · subst hij
          simp [hlt]
        · simp [hij, Ne.symm hij]

/-- A move changes the scopes by a cancellation at most. -/
theorem scopes (h : Moved u s m t) :
    t.shared = s.shared ∧ (t.scopes = s.scopes ∨ ∃ k, t.scopes = s.scopes.cancel k) := by
  cases h with
  | finish =>
      split
      · exact ⟨rfl, .inr ⟨_, rfl⟩⟩
      · exact ⟨rfl, .inl rfl⟩
  | handOn | leave => exact ⟨State.shared_release .., .inl (State.scopes_release ..)⟩
  | disturb | close => exact ⟨rfl, .inr ⟨_, rfl⟩⟩
  | @cancel k => exact ⟨rfl, .inr ⟨k, rfl⟩⟩
  | @join i o =>
      refine ⟨State.shared_account .., ?_⟩
      rw [State.scopes_account _ _ _ _ (u.unit i)]
      split
      · exact .inr ⟨_, rfl⟩
      · exact .inl rfl
  | _ => exact ⟨rfl, .inl rfl⟩

/-- No move takes the cancellation of the shared scope back. -/
theorem isCancelled (h : Moved u s m t) (hb : s.isCancelled = true) : t.isCancelled = true := by
  obtain ⟨hshared, hscopes | ⟨k, hscopes⟩⟩ := h.scopes
  · rwa [State.isCancelled, hscopes, hshared]
  · rw [State.isCancelled, hscopes, hshared]
    exact Scopes.cancelled_cancel hb k

end Moved

namespace Reachable

variable {u : Setup Q A R} {first s : State Q A R} {j : Nat}

/-- The shared scope stays where it was made. -/
theorem under (h : Reachable u first s) (hu : first.scopes.Under first.shared j) :
    s.scopes.Under s.shared j := by
  induction h with
  | start => exact hu
  | move m _ hm ih =>
      obtain ⟨hshared, hscopes | ⟨k, hscopes⟩⟩ := (moved_of_move? hm).scopes
      · rwa [hscopes, hshared]
      · rw [hscopes, hshared]
        exact ih.cancel k

theorem sound (h : Reachable u first s) (hf : first.Sound u) : s.Sound u := by
  induction h with
  | start => exact hf
  | move m _ hm ih => exact (moved_of_move? hm).sound ih

/-- A run begins in a sound state, and so all of its states are sound. -/
theorem isSound {scopes : Scopes} {caller : Nat} (h : Reachable u (Fleet.start u scopes caller) s) :
    s.Sound u :=
  h.sound (sound_start u scopes caller)

theorem isCancelled (h : Reachable u first s) (hb : first.isCancelled = true) :
    s.isCancelled = true := by
  induction h with
  | start => exact hb
  | move m _ hm ih => exact (moved_of_move? hm).isCancelled ih

end Reachable

end Converge.Fleet
