import Converge.Proofs.Fleet.Permits
import Converge.Proofs.Fleet.Verdict

/-!
# The ledger of permits

The history of a run tells which jobs set to work and which gave a permit back.  A job does either
at most once, and between the two it holds a permit, as does a job that was handed one and has not
gone on yet.  So the ledger agrees with the count of permits at every time of a run: failures,
cancellations and crashes make no difference to it.
-/

namespace Converge

open Fleet

variable {Q : Type} {A : Q → Type} {R : Type}

namespace Fleet

/-- The job that took up a permit and set to work. -/
def Deed.began? : Deed Q A R → Option Nat
  | began i => some i
  | _ => none

/-- The job that gave its permit back. -/
def Deed.released? : Deed Q A R → Option Nat
  | released i => some i
  | _ => none

/-- Is it the beginning or the end of a job's work with a permit? -/
def Deed.isEntry : Deed Q A R → Bool
  | began _ | released _ => true
  | _ => false

/-- The entries of a job in the ledger, the latest first. -/
def entriesOf (i : Nat) (h : List (Deed Q A R)) : List (Deed Q A R) :=
  (deedsOf i h).filter Deed.isEntry

namespace State

/-- The jobs that hold a permit. -/
def holders (s : State Q A R) : List Nat := (List.range s.stages.length).filter s.holdsPermit

/-- The jobs that have set to work. -/
def begun (s : State Q A R) : List Nat := s.history.reverse.filterMap Deed.began?

/-- The jobs that have given a permit back. -/
def givenBack (s : State Q A R) : List Nat := s.history.reverse.filterMap Deed.released?

/-- Has the work on job `i` ended? -/
def isOver (s : State Q A R) (i : Nat) : Bool := (s.stages[i]?).any (·.outcome?.isSome)

variable {s : State Q A R} {i : Nat}

theorem holdsPermit_of_stage {g : Stage Q A R} (hi : s.stages[i]? = some g) :
    s.holdsPermit i = g.holdsPermit := by
  rw [holdsPermit, hi]
  rfl

theorem exists_stage_of_holdsPermit (h : s.holdsPermit i = true) :
    ∃ g, s.stages[i]? = some g ∧ g.holdsPermit = true :=
  (Option.any_eq_true _ _).mp h

theorem mem_holders : i ∈ s.holders ↔ s.holdsPermit i = true := by
  rw [holders, List.mem_filter, List.mem_range, and_iff_right_iff_imp]
  intro h
  obtain ⟨g, hg, -⟩ := exists_stage_of_holdsPermit h
  exact lt_of_stage hg

theorem nodup_holders (s : State Q A R) : s.holders.Nodup := List.nodup_range.filter _

theorem length_holders (s : State Q A R) : s.holders.length = s.held := by
  have hcount : ∀ gs : List (Stage Q A R), gs.countP Stage.holdsPermit =
      (List.range gs.length).countP fun i => (gs[i]?).any Stage.holdsPermit := by
    intro gs
    induction gs with
    | nil => rfl
    | cons g gs ih =>
        rw [List.length_cons, List.range_succ_eq_map, List.countP_cons, List.countP_cons,
          List.countP_map, ih]
        rfl
  rw [held, hcount, holders, List.countP_eq_length_filter]
  rfl

/-- A view that shows entries by their jobs shows a job as often as it has such an entry. -/
theorem count_view {f : Deed Q A R → Option Nat}
    (hf : ∀ d i, f d = some i → d.job? = some i ∧ d.isEntry = true) (h : List (Deed Q A R))
    (i : Nat) :
    (h.reverse.filterMap f).count i = (entriesOf i h).countP fun d => f d = some i := by
  rw [(h.reverse_perm.filterMap f).count_eq, entriesOf, deedsOf, List.filter_filter,
    List.countP_filter, List.count_eq_countP, List.countP_filterMap]
  refine List.countP_congr fun d _ => ?_
  cases hd : f d with
  | none => simp
  | some j =>
      obtain ⟨hjob, hentry⟩ := hf d j hd
      simp only [hjob, hentry]
      simp

theorem count_begun (s : State Q A R) (i : Nat) :
    s.begun.count i = (entriesOf i s.history).countP fun d => d.began? = some i :=
  count_view (fun d i hd => by cases d <;> cases hd; exact ⟨rfl, rfl⟩) s.history i

theorem count_givenBack (s : State Q A R) (i : Nat) :
    s.givenBack.count i = (entriesOf i s.history).countP fun d => d.released? = some i :=
  count_view (fun d i hd => by cases d <;> cases hd; exact ⟨rfl, rfl⟩) s.history i

end State

/-- What a job at this stage has entered in the ledger. -/
def Stage.Entered (i : Nat) (entries : List (Deed Q A R)) : Stage Q A R → Prop
  | fresh | entering | waiting | admitted => entries = []
  | working _ | asking _ _ | leaving _ => entries = [.began i]
  | ended _ | joined _ =>
      entries = [] ∨ entries = [.released i] ∨ entries = [.released i, .began i]

theorem Goes.entered {u : Setup Q A R} {i : Nat} {b b' : Bool} {g g' : Stage Q A R}
    {ds es : List (Deed Q A R)} (hgoes : Goes u i b b' g ds g') (hg : g.Entered i es) :
    g'.Entered i (ds.filter Deed.isEntry ++ es) := by
  cases hgoes <;> simp_all [Stage.Entered, Deed.isEntry, List.filter_cons]

namespace Reachable

variable {u : Setup Q A R} {s : State Q A R} {scopes : Scopes} {caller : Nat}

theorem entered (h : Reachable u (Fleet.start u scopes caller) s) {i : Nat} {g : Stage Q A R}
    (hi : s.stages[i]? = some g) : g.Entered i (entriesOf i s.history) := by
  refine h.keeps i (fun ds _ g => g.Entered i (ds.filter Deed.isEntry)) (fun _ _ hg => hg)
    (fun ds _ _ _ _ _ _ hgoes hg => ?_) (sound_start u scopes caller) (fun g hg => ?_) hi
  · rw [List.filter_append]
    exact hgoes.entered hg
  · rw [stage_start hg, deedsOf_start]
    rfl

theorem entriesOf_eq_nil (h : Reachable u (Fleet.start u scopes caller) s) {i : Nat}
    (hi : s.stages[i]? = none) : entriesOf i s.history = [] := by
  refine List.eq_nil_iff_forall_not_mem.mpr fun d hd => ?_
  obtain ⟨hd, hjob⟩ := List.mem_filter.mp (List.mem_filter.mp hd).1
  obtain ⟨g, hg⟩ := h.stage_of_deed hd (of_decide_eq_true hjob)
  cases hi.symm.trans hg

/-- A job sets to work at most once, and gives a permit back at most once and not before that. -/
theorem entriesOf_cases (h : Reachable u (Fleet.start u scopes caller) s) (i : Nat) :
    entriesOf i s.history = [] ∨ entriesOf i s.history = [.began i] ∨
      entriesOf i s.history = [.released i] ∨
        entriesOf i s.history = [.released i, .began i] := by
  cases hi : s.stages[i]? with
  | none => exact .inl (h.entriesOf_eq_nil hi)
  | some g =>
      have hg := h.entered hi
      cases g with
      | fresh | entering | waiting | admitted => exact .inl hg
      | working | asking | leaving => exact .inr (.inl hg)
      | ended | joined =>
          rcases hg with hg | hg | hg
          · exact .inl hg
          · exact .inr (.inr (.inl hg))
          · exact .inr (.inr (.inr hg))

theorem nodup_begun (h : Reachable u (Fleet.start u scopes caller) s) : s.begun.Nodup := by
  refine List.nodup_iff_count.mpr fun i => ?_
  rw [State.count_begun]
  rcases h.entriesOf_cases i with he | he | he | he <;> simp [he, Deed.began?]

theorem nodup_givenBack (h : Reachable u (Fleet.start u scopes caller) s) : s.givenBack.Nodup := by
  refine List.nodup_iff_count.mpr fun i => ?_
  rw [State.count_givenBack]
  rcases h.entriesOf_cases i with he | he | he | he <;> simp [he, Deed.released?]

/-- The ledger tells who holds a permit, except that a job which was handed one enters nothing
before it goes on. -/
theorem holdsPermit_iff (h : Reachable u (Fleet.start u scopes caller) s) (i : Nat) :
    s.holdsPermit i = true ↔
      s.stages[i]? = some .admitted ∨ i ∈ s.begun ∧ i ∉ s.givenBack := by
  rw [← List.count_pos_iff, ← List.count_eq_zero, State.count_begun, State.count_givenBack]
  cases hi : s.stages[i]? with
  | none => simp [State.holdsPermit, hi, h.entriesOf_eq_nil hi]
  | some g =>
      have hg := h.entered hi
      rw [State.holdsPermit_of_stage hi]
      cases g with
      | fresh | entering | waiting | admitted | working | asking | leaving =>
          simp_all [Stage.Entered, Stage.holdsPermit, Deed.began?, Deed.released?]
      | ended | joined =>
          rcases hg with hg | hg | hg <;>
            simp [hg, Stage.holdsPermit, Deed.began?, Deed.released?]

/-- Whoever has set to work and is not over holds a permit. -/
theorem holdsPermit_of_begun (h : Reachable u (Fleet.start u scopes caller) s) {i : Nat}
    (hi : i ∈ s.begun) (hover : s.isOver i = false) : s.holdsPermit i = true := by
  rw [← List.count_pos_iff, State.count_begun] at hi
  cases hstage : s.stages[i]? with
  | none => simp [h.entriesOf_eq_nil hstage] at hi
  | some g =>
      have hg := h.entered hstage
      rw [State.holdsPermit_of_stage hstage]
      cases g with
      | fresh | entering | waiting => simp [show entriesOf i s.history = [] from hg] at hi
      | admitted | working | asking | leaving => rfl
      | ended | joined => simp [State.isOver, hstage, Stage.outcome?] at hover

/-- At every time of a run

* the permits that are free and the jobs that hold one, or have been handed one, make up the
  permits that there are, and no job counts twice;
* the ledger tells who holds a permit, except for a job that has been handed one and has not gone
  on yet; a job sets to work at most once and gives a permit back at most once;
* the jobs that have set to work and are not over are no more than there are permits;
* if the run has returned, all permits are free. -/
theorem permits_conserved (h : Reachable u (Fleet.start u scopes caller) s) :
    s.free + s.holders.length = max u.limit 1 ∧ s.holders.Nodup ∧
    (∀ i, i ∈ s.holders ↔ s.stages[i]? = some .admitted ∨ i ∈ s.begun ∧ i ∉ s.givenBack) ∧
    s.begun.Nodup ∧ s.givenBack.Nodup ∧
    (s.begun.filter fun i => !s.isOver i).length ≤ max u.limit 1 ∧
    (s.closed = true → s.free = max u.limit 1 ∧ s.holders = []) := by
  have hbalance : s.free + s.holders.length = max u.limit 1 := by
    rw [State.length_holders]
    exact h.metered.balance
  refine ⟨hbalance, s.nodup_holders, fun i => State.mem_holders.trans (h.holdsPermit_iff i),
    h.nodup_begun, h.nodup_givenBack, ?_, fun hc => ?_⟩
  · have hsub : (s.begun.filter fun i => !s.isOver i) ⊆ s.holders := by
      intro i hi
      obtain ⟨hbegun, hover⟩ := List.mem_filter.mp hi
      exact State.mem_holders.mpr (h.holdsPermit_of_begun hbegun (by simpa using hover))
    have hlength := List.Nodup.length_le_of_subset (h.nodup_begun.filter _) hsub
    omega
  · have hnone : s.holders = [] := by
      refine List.eq_nil_iff_forall_not_mem.mpr fun i hi => ?_
      obtain ⟨g, hg, hholds⟩ := State.exists_stage_of_holdsPermit (State.mem_holders.mp hi)
      obtain ⟨o, rfl⟩ := h.joined_of_closed hc hg
      cases hholds
    rw [hnone, List.length_nil, Nat.add_zero] at hbalance
    exact ⟨hbalance, hnone⟩

end Reachable

end Fleet

/-! ## A permit from hand to hand -/

namespace Rehearsal

/-- A limit of no job at a time counts as one. -/
def narrowPair : Setup Cue Cue.Answer Actor := { clumsyPair with limit := 0 }

/-- The first job has failed and handed its permit on to the second one. -/
theorem permits_conserved_of_narrow :
    ∃ s, Reachable narrowPair (start narrowPair .one 0) s ∧ s.begun = [0] ∧ s.givenBack = [0] ∧
      s.holders = [1] ∧ s.isCancelled = true ∧ s.free + s.holders.length = max 0 1 := by
  have hsome : ((start narrowPair .one 0).moves? narrowPair (untilFailure ++ [.leave 0])).isSome =
      true := by
    decide
  have h := reachable_moves? .start (Option.some_get hsome).symm
  exact ⟨_, h, rfl, rfl, rfl, rfl, h.permits_conserved.1⟩

end Rehearsal

end Converge
