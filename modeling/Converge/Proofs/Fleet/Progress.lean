import Mathlib.Data.DFinsupp.WellFounded
import Mathlib.Data.Prod.Lex
import Mathlib.Order.WellFounded
import Mathlib.SetTheory.Ordinal.Family
import Converge.Proofs.Fleet.Permits
import Converge.Proofs.Fleet.Verdict

/-!
# Runs come to an end

A run that has not returned can go on by a move of its own, and it cannot go on for ever: every
move of its own brings some job nearer to being joined, and none brings a job further away from
that.  How far away a job is cannot be told by a number, since the answers of the world decide how
long its course will be; an ordinal can tell.
-/

namespace Converge

variable {Q : Type} {A : Q → Type} {R α : Type}

/-! ## How much of a course is left -/

/-- A bound on what is left of a course, whatever the world answers. -/
noncomputable def Course.rank : Course Q A R α → Ordinal.{0}
  | done _ => 0
  | ask _ next => (⨆ a, (next a).rank + 1) + 1
  | look next => max (next false).rank (next true).rank + 1
  | leave _ next => next.rank + 1

/-- A bound on what is left once a question has been put. -/
noncomputable def Course.rankAsking {q : Q} (next : A q → Course Q A R α) : Ordinal.{0} :=
  ⨆ a, (next a).rank + 1

namespace Course

theorem rank_lt_rankAsking {q : Q} (next : A q → Course Q A R α) (a : A q) :
    (next a).rank < rankAsking next :=
  Ordinal.lt_iSup_add_one (fun a => (next a).rank) a

theorem rankAsking_lt {q : Q} (next : A q → Course Q A R α) :
    rankAsking next < (ask q next).rank := by
  rw [rank]
  exact lt_add_one _

theorem rank_lt_look (next : Bool → Course Q A R α) (b : Bool) :
    (next b).rank < (look next).rank := by
  rw [rank]
  refine lt_of_le_of_lt ?_ (lt_add_one _)
  cases b with
  | false => exact le_max_left _ _
  | true => exact le_max_right _ _

theorem rank_marks_le (c : Course Q A R α) : c.marks.2.rank ≤ c.rank := by
  induction c with
  | leave m next ih =>
      rw [marks_leave, rank]
      exact ih.trans (le_of_lt (lt_add_one _))
  | _ => exact le_refl _

theorem rank_marks_lt (m : Mark R) (next : Course Q A R α) :
    (leave m next).marks.2.rank < (leave m next).rank := by
  rw [marks_leave, rank]
  exact lt_of_le_of_lt next.rank_marks_le (lt_add_one _)

theorem rank_pace_le (b : Bool) (c : Course Q A R α) : (c.pace b).2.rank ≤ c.rank := by
  cases c with
  | look next => exact (rank_marks_le _).trans (le_of_lt (rank_lt_look next b))
  | leave m next => exact le_of_lt (rank_marks_lt m next)
  | _ => exact le_refl _

end Course

namespace Fleet

/-! ## How far a job is from being joined -/

/-- How far a job at this stage is from being joined: its phase, and what is left of its course
if it is at work. -/
noncomputable def Stage.height : Stage Q A R → ℕ ×ₗ Ordinal.{0}
  | fresh => toLex (7, 0)
  | entering => toLex (6, 0)
  | waiting => toLex (5, 0)
  | admitted => toLex (4, 0)
  | working c => toLex (3, c.rank)
  | asking _ next => toLex (3, Course.rankAsking next)
  | leaving _ => toLex (2, 0)
  | ended _ => toLex (1, 0)
  | joined _ => toLex (0, 0)

variable {u : Setup Q A R} {s t : State Q A R} {m : Move Q A}

theorem height_lt_of_phase {a b : ℕ} {x y : Ordinal.{0}} (h : a < b) :
    toLex (a, x) < toLex (b, y) :=
  Prod.Lex.toLex_lt_toLex.mpr (.inl h)

theorem height_lt_of_rank {a : ℕ} {x y : Ordinal.{0}} (h : x < y) :
    toLex (a, x) < toLex (a, y) :=
  Prod.Lex.toLex_lt_toLex.mpr (.inr ⟨rfl, h⟩)

theorem height_le_of_rank {a : ℕ} {x y : Ordinal.{0}} (h : x ≤ y) :
    toLex (a, x) ≤ toLex (a, y) :=
  Prod.Lex.toLex_le_toLex.mpr (.inr ⟨rfl, h⟩)

/-- No job gets further away. -/
theorem Goes.height_le {i : Nat} {b b' : Bool} {g g' : Stage Q A R} {ds : List (Deed Q A R)}
    (h : Goes u i b b' g ds g') : g'.height ≤ g.height := by
  cases h with
  | pace => exact height_le_of_rank (Course.rank_pace_le b _)
  | ask => exact le_of_lt (height_lt_of_rank (Course.rankAsking_lt _))
  | reply a => exact le_of_lt (height_lt_of_rank (Course.rank_lt_rankAsking _ a))
  | _ => exact le_of_lt (height_lt_of_phase (by decide))

/-- How far job `i` is from being joined. -/
noncomputable def State.height (s : State Q A R) (i : Nat) : ℕ ×ₗ Ordinal.{0} :=
  (s.stages[i]?).elim (toLex (0, 0)) Stage.height

theorem State.height_eq {i : Nat} {g : Stage Q A R} (hi : s.stages[i]? = some g) :
    s.height i = g.height := by
  rw [height, hi]
  rfl

theorem Moved.height_le (h : Moved u s m t) (hs : s.Sound u) (i : Nat) :
    t.height i ≤ s.height i := by
  cases hi : s.stages[i]? with
  | none =>
      have hnone : t.stages[i]? = none := by
        rw [List.getElem?_eq_none_iff] at hi ⊢
        rwa [(h.sound hs).length, ← hs.length]
      rw [State.height, State.height, hi, hnone]
  | some g =>
      rcases h.kept hs hi with ⟨hstage, -⟩ | ⟨g', ds, hstage, -, hgoes⟩
      · rw [State.height_eq hi, State.height_eq hstage]
      · rw [State.height_eq hi, State.height_eq hstage]
        exact hgoes.height_le

/-- A job whose stage is set gets nearer if the new stage is nearer. -/
theorem height_lt_of_set {i : Nat} {g k : Stage Q A R} (hi : s.stages[i]? = some g)
    (hstages : t.stages = (s.setStage i k).stages) (hlt : k.height < g.height) :
    t.height i < s.height i := by
  have hset : t.stages[i]? = some k := by rw [hstages, State.stage_setStage_self hi]
  rw [State.height_eq hi, State.height_eq hset]
  exact hlt

/-- A job that goes on along its course gets nearer to its end. -/
theorem height_goOn {i : Nat} {c : Course Q A R (Except Fault Tally)}
    (hi : s.stages[i]? = some (.working c)) : (s.goOn i c).height i < s.height i := by
  cases c with
  | done r =>
      refine height_lt_of_set (k := .leaving (.returned r)) hi ?_ (height_lt_of_phase (by decide))
      simp only [State.goOn]
      split <;> rfl
  | ask q next => exact height_lt_of_set hi rfl (height_lt_of_rank (Course.rankAsking_lt next))
  | look next =>
      refine height_lt_of_set hi rfl (height_lt_of_rank ?_)
      exact lt_of_le_of_lt (Course.rank_marks_le _) (Course.rank_lt_look next _)
  | leave mk next =>
      exact height_lt_of_set hi rfl (height_lt_of_rank (Course.rank_marks_lt mk next))

/-- A job that gives its permit back is not the one that the permit goes to. -/
theorem State.stage_giveBack (hs : s.Sound u) {i : Nat} {g g' : Stage Q A R}
    (hi : s.stages[i]? = some g) (hg : g ≠ .waiting) :
    ((s.setStage i g').release i).stages[i]? = some g' := by
  rw [State.stage_release (State.stage_setStage_self hi), if_neg]
  intro hhead
  have hwaits := (hs.inLine i).mp (List.mem_of_mem_head? hhead)
  exact hg (Option.some.inj (hi.symm.trans hwaits))

/-! ## The moves of a run -/

/-- Is it a move of the run itself?  Nothing breaks off and nobody cancels anything, and the world
answers as it is told to. -/
def Move.IsOwn (answers : (i : Nat) → (q : Q) → A q) : Move Q A → Prop
  | look _ | enter _ | goOn _ | leave _ | join _ | close => True
  | reply i answer => answer = answers i
  | disturb _ | crash _ _ | cancel _ => False

/-- A move of a job brings it nearer to being joined. -/
theorem Moved.exists_height_lt (h : s.move? u m = some t) (hs : s.Sound u)
    (hm : m.isOutside = false) (hclose : m ≠ .close) : ∃ i, i < u.jobs.length ∧
      t.height i < s.height i := by
  have hlt : ∀ {i : Nat} {g : Stage Q A R}, s.stages[i]? = some g → i < u.jobs.length :=
    fun hi => hs.length ▸ State.lt_of_stage hi
  cases moved_of_move? h with
  | finish hi | ask hi | pace hi =>
      refine ⟨_, hlt hi, ?_⟩
      rw [State.move?, hi] at h
      exact Option.some.inj h ▸ height_goOn hi
  | pass hi | turnAway hi | giveUp hi | takeUp hi | enter hi | queue hi | crash hi =>
      exact ⟨_, hlt hi, height_lt_of_set hi rfl (height_lt_of_phase (by decide))⟩
  | reply hi =>
      exact ⟨_, hlt hi, height_lt_of_set hi rfl (height_lt_of_rank (Course.rank_lt_rankAsking _ _))⟩
  | handOn hi | leave hi =>
      refine ⟨_, hlt hi, ?_⟩
      rw [State.height_eq hi, State.height_eq (State.stage_giveBack hs hi (by simp))]
      exact height_lt_of_phase (by decide)
  | join hi =>
      refine ⟨_, hlt hi, height_lt_of_set hi (State.stages_account ..) ?_⟩
      exact height_lt_of_phase (by decide)
  | disturb | cancel => cases hm
  | close => exact absurd rfl hclose

/-- A run that has returned stays so. -/
theorem Moved.closed_mono (h : Moved u s m t) (hc : s.closed = true) : t.closed = true := by
  cases h with
  | handOn | leave => simpa [State.setStage] using hc
  | join => simpa [State.setStage, State.record] using hc
  | finish => split <;> exact hc
  | close => rfl
  | _ => exact hc

/-- How far a run is from having returned: whether it has, and how far its jobs are from being
joined. -/
noncomputable def State.distance (u : Setup Q A R) (s : State Q A R) :
    ℕ ×ₗ (Fin u.jobs.length → ℕ ×ₗ Ordinal.{0}) :=
  toLex (if s.closed then 0 else 1, fun i => s.height i)

/-- Every move of a run brings it nearer to its end. -/
theorem distance_lt (h : s.move? u m = some t) (hs : s.Sound u) (hm : m.isOutside = false) :
    t.distance u < s.distance u := by
  have hmoved := moved_of_move? h
  rw [State.distance, State.distance, Prod.Lex.toLex_lt_toLex]
  by_cases hclose : m = .close
  · subst hclose
    cases hmoved with
    | close hall hc =>
        refine .inl ?_
        rw [hc]
        exact Nat.one_pos
  · cases hc : s.closed with
    | true =>
        rw [hmoved.closed_mono hc]
        refine .inr ⟨rfl, Pi.lt_def.mpr ⟨fun i => hmoved.height_le hs i, ?_⟩⟩
        obtain ⟨i, hi, hlt⟩ := Moved.exists_height_lt h hs hm hclose
        exact ⟨⟨i, hi⟩, hlt⟩
    | false =>
        cases hc' : t.closed with
        | true => exact .inl Nat.one_pos
        | false =>
            refine .inr ⟨rfl, Pi.lt_def.mpr ⟨fun i => hmoved.height_le hs i, ?_⟩⟩
            obtain ⟨i, hi, hlt⟩ := Moved.exists_height_lt h hs hm hclose
            exact ⟨⟨i, hi⟩, hlt⟩

/-! ## A run that has not returned can go on -/

variable {answers : (i : Nat) → (q : Q) → A q}

/-- Own moves come from inside. -/
theorem Move.IsOwn.isOutside (h : m.IsOwn answers) : m.isOutside = false := by
  cases m with
  | disturb | cancel => exact h.elim
  | _ => rfl

/-- Is it a move that the run makes by itself, without the world? -/
def Move.isSolo : Move Q A → Bool
  | look _ | enter _ | goOn _ | leave _ | join _ | close => true
  | reply _ _ | disturb _ | crash _ _ | cancel _ => false

theorem Move.isOwn_of_isSolo (h : m.isSolo = true) : m.IsOwn answers := by
  cases m with
  | reply | disturb | crash | cancel => cases h
  | _ => trivial

/-- A job that neither waits for a permit nor has been joined can move, unless it has put a question
to the world. -/
theorem exists_move_of_stage {i : Nat} {g : Stage Q A R} (hi : s.stages[i]? = some g)
    (hwaits : g ≠ .waiting) (hjoined : g.isJoined = false) :
    (∃ m t, m.isSolo = true ∧ s.move? u m = some t) ∨ ∃ q next, g = .asking q next := by
  cases g with
  | fresh => exact .inl ⟨.look i, _, rfl, by rw [State.move?, hi]⟩
  | entering =>
      by_cases hfree : 0 < s.free
      · exact .inl ⟨.enter i, _, rfl, by rw [State.move?, hi]; exact if_pos hfree⟩
      · exact .inl ⟨.enter i, _, rfl, by rw [State.move?, hi]; exact if_neg hfree⟩
  | waiting => exact absurd rfl hwaits
  | admitted =>
      cases hb : s.isCancelled with
      | true => exact .inl ⟨.look i, _, rfl, by rw [State.move?, hi, hb]; exact if_pos rfl⟩
      | false =>
          exact .inl
            ⟨.look i, _, rfl, by rw [State.move?, hi, hb]; exact if_neg Bool.false_ne_true⟩
  | working c => exact .inl ⟨.goOn i, _, rfl, by rw [State.move?, hi]⟩
  | asking q next => exact .inr ⟨q, next, rfl⟩
  | leaving o => exact .inl ⟨.leave i, _, rfl, by rw [State.move?, hi]⟩
  | ended o => exact .inl ⟨.join i, _, rfl, by rw [State.move?, hi]⟩
  | joined o => cases hjoined

/-- As long as a run has not returned, it can go on by itself, or a question is before the world. -/
theorem Reachable.exists_solo_move {scopes : Scopes} {caller : Nat}
    (h : Reachable u (Fleet.start u scopes caller) s) (hc : s.closed = false) :
    (∃ m t, m.isSolo = true ∧ s.move? u m = some t) ∨
      ∃ (i : Nat) (q : Q) (next : A q → Course Q A R (Except Fault Tally)),
        s.stages[i]? = some (.asking q next) := by
  by_cases hall : s.stages.all Stage.isJoined = true
  · exact .inl ⟨.close, _, rfl, by rw [State.move?, hall, hc]; rfl⟩
  · rw [List.all_eq_true, not_forall] at hall
    obtain ⟨g, hg⟩ := hall
    rw [Classical.not_imp, Bool.not_eq_true] at hg
    obtain ⟨hmem, hjoined⟩ := hg
    obtain ⟨i, hi⟩ := List.mem_iff_getElem?.mp hmem
    have hstage : ∃ (j : Nat) (g : Stage Q A R), s.stages[j]? = some g ∧ g ≠ .waiting ∧
        g.isJoined = false := by
      by_cases hwaits : g = .waiting
      · -- a job in line waits for one that holds a permit, and that one can move
        subst hwaits
        obtain ⟨j, g', hj, hholds⟩ := h.exists_holder hi
        refine ⟨j, g', hj, ?_, ?_⟩
        · rintro rfl
          cases hholds
        · cases g' with
          | joined => cases hholds
          | _ => rfl
      · exact ⟨i, g, hi, hwaits, hjoined⟩
    obtain ⟨j, g', hj, hwaits, hjoined⟩ := hstage
    rcases exists_move_of_stage hj hwaits hjoined with hmove | ⟨q, next, rfl⟩
    · exact .inl hmove
    · exact .inr ⟨j, q, next, hj⟩

/-- As long as a run has not returned, some move of its own can be made. -/
theorem Reachable.exists_own_move {scopes : Scopes} {caller : Nat}
    (h : Reachable u (Fleet.start u scopes caller) s) (hc : s.closed = false)
    (answers : (i : Nat) → (q : Q) → A q) : ∃ m t, m.IsOwn answers ∧ s.move? u m = some t := by
  rcases h.exists_solo_move hc with ⟨m, t, hsolo, hm⟩ | ⟨i, q, next, hi⟩
  · exact ⟨m, t, Move.isOwn_of_isSolo hsolo, hm⟩
  · exact ⟨.reply i (answers i), _, rfl, by rw [State.move?, hi]⟩

/-! ## Runs that are left to themselves -/

section Inside

variable {scopes : Scopes} {caller : Nat}

/-- A run can be brought to its end by any means by which it can always be brought on, and whatever
these keep holds in the end. -/
theorem Reachable.exists_closed (h : Reachable u (Fleet.start u scopes caller) s)
    {I : State Q A R → Prop} (hs : I s)
    (hgo : ∀ s, Reachable u (Fleet.start u scopes caller) s → I s → s.closed = false →
      ∃ m t, m.isOutside = false ∧ s.move? u m = some t ∧ I t) :
    ∃ t, I t ∧ t.closed = true := by
  induction hd : s.distance u using WellFoundedLT.induction generalizing s with
  | ind d ih =>
      cases hc : s.closed with
      | true => exact ⟨s, hs, hc⟩
      | false =>
          obtain ⟨m, t, hin, hm, ht⟩ := hgo s h hs hc
          exact ih _ (hd ▸ Fleet.distance_lt hm h.isSound hin) (h.move m hm) ht rfl

/-- No run goes on for ever. -/
theorem Reachable.not_endless {run : Nat → State Q A R}
    (h : Reachable u (Fleet.start u scopes caller) (run 0)) :
    ¬ ∀ k, ∃ m, m.isOutside = false ∧ (run k).move? u m = some (run (k + 1)) := by
  intro hrun
  have hreach : ∀ k, Reachable u (Fleet.start u scopes caller) (run k) := by
    intro k
    induction k with
    | zero => exact h
    | succ k ih =>
        obtain ⟨m, -, hm⟩ := hrun k
        exact ih.move m hm
  obtain ⟨k, hk⟩ := WellFounded.not_rel_apply_succ (r := (· < ·)) fun k => (run k).distance u
  obtain ⟨m, hin, hm⟩ := hrun k
  exact hk (Fleet.distance_lt hm (hreach k).isSound hin)

end Inside

end Fleet

end Converge
