import Converge.Proofs.Fleet.Verdict
import Converge.Proofs.Scopes.History

/-!
# A run and the scopes of others

While a run goes on, others make scopes of those that there are, be it the caller's or the one that
the jobs share, and cancel them as they like; and the run may be given up before it returns.  The
run for its part cancels one scope only, that of its jobs, which it has made under the caller's.  So
whatever does not stem from that scope is cancelled by others or not at all.
-/

namespace Converge.Fleet

open Scopes (Act Possible PossibleFrom after makings Heeds Stems IsChild)

variable {Q : Type} {A : Q → Type} {R : Type}

/-- What happens while a run goes on. -/
inductive Happening (Q : Type) (A : Q → Type) : Type where
  | move (m : Move Q A)
  /-- Somebody else makes or cancels a scope. -/
  | act (a : Act)
  /-- The run is given up. -/
  | drop

/-- What somebody else does to scopes. -/
def Happening.acts : Happening Q A → List Act
  | .act a => [a]
  | .move (.cancel k) => [.cancel k]
  | _ => []

/-- All that others do to scopes while a run goes on. -/
def others (hs : List (Happening Q A)) : List Act := hs.flatMap Happening.acts

/-- All that is done to scopes before a run and while it goes on, except for what the run itself
cancels: the run begins by making a scope under that of the caller. -/
def surroundings (acts : List Act) (caller : Nat) (hs : List (Happening Q A)) : List Act :=
  acts ++ .child caller :: others hs

/-- The states that a run comes to as things happen, and whether it has been given up by then.  The
run cancels the scope of its jobs as it is given up; its jobs may still go on for a while. -/
inductive Unfolds (u : Setup Q A R) (first : State Q A R) :
    List (Happening Q A) → Bool → State Q A R → Prop
  | start : Unfolds u first [] false first
  | move {hs : List (Happening Q A)} {dropped : Bool} {s t : State Q A R} (m : Move Q A)
      (h : Unfolds u first hs dropped s) (hm : s.move? u m = some t) :
      Unfolds u first (hs ++ [.move m]) dropped t
  | act {hs : List (Happening Q A)} {dropped : Bool} {s : State Q A R} (a : Act)
      (h : Unfolds u first hs dropped s) (ha : a.IsPossible s.scopes.size) :
      Unfolds u first (hs ++ [.act a]) dropped { s with scopes := s.scopes.act a }
  | drop {hs : List (Happening Q A)} {dropped : Bool} {s : State Q A R}
      (h : Unfolds u first hs dropped s) (hc : s.closed = false) :
      Unfolds u first (hs ++ [.drop]) true s.cancelShared

/-- Has the run, or one of its jobs, had the shared scope cancelled? -/
def State.HasCancelled (s : State Q A R) : Prop := .cancelled ∈ s.history

variable {u : Setup Q A R} {s t : State Q A R} {acts known full more : List Act}
  {hs : List (Happening Q A)} {dropped : Bool} {caller i j : Nat}

@[simp] theorem Happening.acts_drop : (drop : Happening Q A).acts = [] := rfl

@[simp] theorem others_concat (hs : List (Happening Q A)) (h : Happening Q A) :
    others (hs ++ [h]) = others hs ++ h.acts := by
  simp [others]

@[simp] theorem surroundings_concat (acts : List Act) (caller : Nat) (hs : List (Happening Q A))
    (h : Happening Q A) :
    surroundings acts caller (hs ++ [h]) = surroundings acts caller hs ++ h.acts := by
  simp [surroundings]

theorem cancel_mem_surroundings : .cancel j ∈ surroundings acts caller hs ↔
    .cancel j ∈ acts ++ others hs := by
  simp [surroundings]

theorem makings_surroundings : makings (surroundings acts caller hs) =
    makings acts ++ .child caller :: makings (others hs) := by
  rw [surroundings, ← List.singleton_append, Scopes.makings_append, Scopes.makings_append]
  rfl

theorem isChild_surroundings :
    IsChild (surroundings acts caller hs) (makings acts).length caller := by
  rw [IsChild, makings_surroundings, List.getElem?_append_right (Nat.le_refl _), Nat.sub_self,
    List.getElem?_cons_zero]

/-- Whatever was made before the run is still the same. -/
theorem isChild_of_before (h : IsChild acts i j) : IsChild (surroundings acts caller hs) i j := by
  rw [IsChild, makings_surroundings, List.getElem?_append_left (List.getElem?_eq_some_iff.mp h).1]
  exact h

/-! ## What a move does to the scopes -/

namespace State

@[simp] theorem hasCancelled_setStage (i : Nat) (g : Stage Q A R) :
    (s.setStage i g).HasCancelled ↔ s.HasCancelled := .rfl

@[simp] theorem hasCancelled_record (d : Deed Q A R) :
    (s.record d).HasCancelled ↔ .cancelled = d ∨ s.HasCancelled := List.mem_cons

@[simp] theorem hasCancelled_begin (i : Nat) : (s.begin u i).HasCancelled ↔ s.HasCancelled := by
  simp [begin]

@[simp] theorem hasCancelled_release (i : Nat) :
    (s.release i).HasCancelled ↔ s.HasCancelled := by
  simp [HasCancelled]

@[simp] theorem hasCancelled_mark (i : Nat) (ms : List (Mark R)) :
    (s.mark i ms).HasCancelled ↔ s.HasCancelled := by
  simp [HasCancelled, mark]

theorem hasCancelled_cancelShared (s : State Q A R) : s.cancelShared.HasCancelled :=
  List.mem_cons_self

/-- A failure has the shared scope cancelled when it is taken into account, and nothing else has. -/
theorem hasCancelled_account (s : State Q A R) (i : Nat) (o : Outcome) (name : String) :
    (s.account u i o).HasCancelled ↔ s.HasCancelled ∨ (o.failure? name).isSome = true := by
  rw [o.isSome_failure? name (s.nameOf u i)]
  unfold HasCancelled
  cases hr : o.result (s.nameOf u i) with
  | ok tally => simp [account, Outcome.failure?, hr, strike]
  | error f =>
      cases hf : f.isCancellation
      · simp only [account, Outcome.failure?, hr, hf, cancelShared, record, strike]
        cases s.failure <;> simp
      · simp [account, Outcome.failure?, hr, hf, record, strike]

end State

namespace Moved

variable {m : Move Q A}

/-- A move does to the scopes what somebody else does by it, or cancels the shared scope. -/
theorem touches (h : Moved u s m t) :
    (t.scopes = (Happening.move m).acts.foldl Scopes.act s.scopes ∧
      (t.HasCancelled ↔ s.HasCancelled)) ∨
    ((Happening.move m).acts = [] ∧ t.scopes = s.scopes.cancel s.shared ∧ t.HasCancelled) := by
  cases h with
  | pass | turnAway | giveUp | queue | crash | cancel => exact .inl ⟨rfl, .rfl⟩
  | takeUp | enter => exact .inl ⟨rfl, State.hasCancelled_begin _⟩
  | ask | reply | pace => exact .inl ⟨rfl, by simp⟩
  | handOn | leave => exact .inl ⟨State.scopes_release .., by simp⟩
  | @finish i r =>
      cases hr : (Outcome.returned r).isFault
      · exact .inl ⟨rfl, .rfl⟩
      · exact .inr ⟨rfl, rfl, s.hasCancelled_cancelShared⟩
  | disturb | close => exact .inr ⟨rfl, rfl, s.hasCancelled_cancelShared⟩
  | @join i o =>
      rw [State.scopes_account _ _ _ _ (u.unit i), State.hasCancelled_account _ _ _ (u.unit i)]
      cases hf : (o.failure? (u.unit i)).isSome
      · exact .inl ⟨rfl, by simp⟩
      · exact .inr ⟨rfl, rfl, .inr rfl⟩

/-- A run has the shared scope cancelled when it returns. -/
theorem hasCancelled_of_closed (h : Moved u s m t) (hc : t.closed = true) :
    s.closed = true ∨ t.HasCancelled := by
  cases h with
  | close => exact .inr s.hasCancelled_cancelShared
  | handOn | leave => exact .inl (by simpa [State.setStage] using hc)
  | join => exact .inl (by simpa [State.setStage, State.record] using hc)
  | finish =>
      split at hc
      · exact .inl hc
      · exact .inl hc
  | _ => exact .inl hc

end Moved

/-! ## What has been done to the scopes -/

/-- What has been done to the scopes so far: what is known of the surroundings, and that the shared
scope has been cancelled if the run has had it so. -/
structure State.Tracks (s : State Q A R) (dropped : Bool) (known full : List Act) : Prop where
  possible_known : Possible known
  possible_full : Possible full
  scopes : s.scopes = after full
  makings_eq : makings full = makings known
  cancels : ∀ j, .cancel j ∈ full ↔ .cancel j ∈ known ∨ j = s.shared ∧ s.HasCancelled
  shared : s.shared < s.scopes.size
  atEnd : s.closed = true ∨ dropped = true → s.HasCancelled

namespace State.Tracks

theorem size (h : s.Tracks dropped known full) : s.scopes.size = (makings known).length := by
  rw [h.scopes, Scopes.size_after h.possible_full, h.makings_eq]

/-- Others do something. -/
theorem others (h : s.Tracks dropped known full) (hmore : PossibleFrom s.scopes.size more)
    (hscopes : t.scopes = more.foldl Scopes.act s.scopes) (hshared : t.shared = s.shared)
    (hcancelled : t.HasCancelled ↔ s.HasCancelled)
    (hclosed : t.closed = true → s.closed = true ∨ t.HasCancelled) :
    t.Tracks dropped (known ++ more) (full ++ more) := by
  have hfull : Possible (full ++ more) := by
    rw [Possible, Scopes.possibleFrom_append, Nat.zero_add, h.makings_eq, ← h.size]
    exact ⟨h.possible_full, hmore⟩
  have hafter : t.scopes = after (full ++ more) := by
    rw [hscopes, h.scopes, after, after, List.foldl_append]
  have hmakings : makings (full ++ more) = makings (known ++ more) := by
    rw [Scopes.makings_append, Scopes.makings_append, h.makings_eq]
  refine ⟨?possible, hfull, hafter, hmakings, fun j => ?cancels, ?shared, ?atEnd⟩
  case possible =>
    rw [Possible, Scopes.possibleFrom_append, Nat.zero_add, ← h.size]
    exact ⟨h.possible_known, hmore⟩
  case cancels =>
    rw [List.mem_append, List.mem_append, h.cancels, hshared, hcancelled]
    exact or_right_comm
  case shared =>
    rw [hshared, hafter, Scopes.size_after hfull, Scopes.makings_append, List.length_append,
      h.makings_eq, ← h.size]
    exact Nat.lt_add_right _ h.shared
  case atEnd =>
    rintro (hc | hd)
    · rcases hclosed hc with hc | hc
      · exact hcancelled.mpr (h.atEnd (.inl hc))
      · exact hc
    · exact hcancelled.mpr (h.atEnd (.inr hd))

/-- The run has the shared scope cancelled. -/
theorem own (h : s.Tracks dropped known full) (hscopes : t.scopes = s.scopes.cancel s.shared)
    (hshared : t.shared = s.shared) (hcancelled : t.HasCancelled) (dropped' : Bool) :
    t.Tracks dropped' known (full ++ [.cancel s.shared]) where
  possible_known := h.possible_known
  possible_full := by
    rw [Scopes.possible_concat, h.makings_eq, ← h.size]
    exact ⟨h.possible_full, fun i hi => Option.some.inj hi ▸ h.shared⟩
  scopes := by rw [hscopes, h.scopes, Scopes.after_concat, Scopes.act]
  makings_eq := by
    rw [Scopes.makings_append, h.makings_eq]
    exact List.append_nil _
  cancels j := by
    simp only [List.mem_append, List.mem_singleton, Act.cancel.injEq, h.cancels, hshared,
      hcancelled, and_true]
    constructor
    · rintro ((hj | ⟨hj, -⟩) | hj)
      · exact .inl hj
      · exact .inr hj
      · exact .inr hj
    · exact Or.imp_left .inl
  shared := by rw [hshared, hscopes, Scopes.size_cancel]; exact h.shared
  atEnd _ := hcancelled

/-- A scope is cancelled if others have seen to it, or the run has and the scope heeds the shared
one. -/
theorem cancelled_iff (h : s.Tracks dropped known full) (hi : i < s.scopes.size) :
    s.scopes.cancelled i = true ↔ (∃ j, .cancel j ∈ known ∧ Heeds known i j) ∨
      s.HasCancelled ∧ Heeds known i s.shared := by
  have hreflects : s.scopes.Reflects full := h.scopes ▸ Scopes.reflects_after h.possible_full
  rw [hreflects.cancelled_iff hi, Scopes.heeds_congr h.makings_eq]
  simp only [h.cancels]
  constructor
  · rintro ⟨j, hj | ⟨rfl, hcancelled⟩, hheeds⟩
    · exact .inl ⟨j, hj, hheeds⟩
    · exact .inr ⟨hcancelled, hheeds⟩
  · rintro (⟨j, hj, hheeds⟩ | ⟨hcancelled, hheeds⟩)
    · exact ⟨j, .inl hj, hheeds⟩
    · exact ⟨s.shared, .inr ⟨rfl, hcancelled⟩, hheeds⟩

end State.Tracks

/-- As a run begins, it makes the scope of its jobs. -/
theorem tracks_start (u : Setup Q A R) (hacts : Possible acts)
    (hcaller : caller < (after acts).size) :
    (start u (after acts) caller).Tracks false (acts ++ [.child caller])
      (acts ++ [.child caller]) where
  possible_known := by
    rw [Scopes.possible_concat, ← Scopes.size_after hacts]
    exact ⟨hacts, fun i hi => Option.some.inj hi ▸ hcaller⟩
  possible_full := by
    rw [Scopes.possible_concat, ← Scopes.size_after hacts]
    exact ⟨hacts, fun i hi => Option.some.inj hi ▸ hcaller⟩
  scopes := by rw [Scopes.after_concat]; rfl
  makings_eq := rfl
  cancels j := by simp [start, State.HasCancelled]
  shared := by simp [start]
  atEnd := nofun

namespace Unfolds

/-- Several moves in a row are so many things that happen. -/
theorem moves {first : State Q A R} (h : Unfolds u first hs dropped s) {ms : List (Move Q A)}
    (ht : s.moves? u ms = some t) : Unfolds u first (hs ++ ms.map .move) dropped t := by
  induction ms generalizing hs s with
  | nil =>
      rw [List.map_nil, List.append_nil]
      exact Option.some.inj ht ▸ h
  | cons m ms ih =>
      obtain ⟨r, hr, ht⟩ := Option.bind_eq_some_iff.mp ht
      rw [List.map_cons, List.append_cons]
      exact ih (h.move m hr) ht

/-- Nothing takes the cancellation of the shared scope back. -/
theorem isCancelled {first : State Q A R} (h : Unfolds u first hs dropped s)
    (hb : first.isCancelled = true) : s.isCancelled = true := by
  induction h with
  | start => exact hb
  | move m _ hm ih => exact (moved_of_move? hm).isCancelled ih
  | act a _ _ ih => exact Scopes.cancelled_act a ih
  | drop _ _ ih => exact Scopes.cancelled_cancel ih _

theorem shared_eq {first : State Q A R} (h : Unfolds u first hs dropped s) :
    s.shared = first.shared := by
  induction h with
  | start => rfl
  | move m _ hm ih => exact (moved_of_move? hm).scopes.1.trans ih
  | act a _ _ ih => exact ih
  | drop _ _ ih => exact ih

theorem exists_tracks (h : Unfolds u (Fleet.start u (after acts) caller) hs dropped s)
    (hacts : Possible acts) (hcaller : caller < (after acts).size) :
    ∃ full, s.Tracks dropped (surroundings acts caller hs) full := by
  induction h with
  | start => exact ⟨_, tracks_start u hacts hcaller⟩
  | @move hs dropped s t m _ hm ih =>
      obtain ⟨full, htracks⟩ := ih
      have hmoved := moved_of_move? hm
      rw [surroundings_concat]
      rcases hmoved.touches with ⟨hscopes, hcancelled⟩ | ⟨hnone, hscopes, hcancelled⟩
      · refine ⟨_, htracks.others ?_ hscopes hmoved.scopes.1 hcancelled
          hmoved.hasCancelled_of_closed⟩
        cases hmoved with
        | cancel hk =>
            exact ⟨fun i hi => Option.some.inj hi ▸ Nat.lt_trans hk htracks.shared, trivial⟩
        | _ => trivial
      · rw [hnone, List.append_nil]
        exact ⟨_, htracks.own hscopes hmoved.scopes.1 hcancelled dropped⟩
  | act a _ ha ih =>
      obtain ⟨full, htracks⟩ := ih
      rw [surroundings_concat]
      exact ⟨_, htracks.others ⟨ha, trivial⟩ rfl rfl .rfl .inl⟩
  | @drop hs dropped s _ _ ih =>
      obtain ⟨full, htracks⟩ := ih
      rw [surroundings_concat, Happening.acts_drop, List.append_nil]
      exact ⟨_, htracks.own (t := s.cancelShared) rfl rfl s.hasCancelled_cancelShared true⟩

/-- A later run in the same scope, as the scopes are by then, heeds the scope of the earlier one as
little as the caller does. -/
theorem shared_iff_of_tracks (htracks : s.Tracks dropped known full)
    (hshared : IsChild known s.shared caller) {u' : Setup Q A R} {hs' : List (Happening Q A)}
    {dropped' : Bool}
    (h : Unfolds u' (Fleet.start u' s.scopes caller) hs' dropped' t) :
    t.isCancelled = true ↔ t.HasCancelled ∨ ∃ j, .cancel j ∈ known ++ others hs' ∧
      Heeds (surroundings known caller hs') t.shared j := by
  have hlt : s.shared < s.scopes.size := htracks.shared
  have hcaller : caller < s.scopes.size := by
    have hreflects := Scopes.reflects_after htracks.possible_known
    exact Nat.lt_trans (hreflects.holds _ _ hshared).1 hlt
  have hsize : t.shared = (makings full).length := by
    rw [h.shared_eq, htracks.makings_eq, ← htracks.size]
    rfl
  rw [htracks.scopes] at h hcaller
  obtain ⟨full', htracks'⟩ := h.exists_tracks htracks.possible_full hcaller
  have hmakings : makings (surroundings full caller hs') =
      makings (surroundings known caller hs') := by
    rw [makings_surroundings, makings_surroundings, htracks.makings_eq]
  have hapart : ¬ Heeds (surroundings known caller hs') t.shared s.shared := by
    have hreflects := Scopes.reflects_after htracks'.possible_known
    have hfull : IsChild full s.shared caller := by rwa [IsChild, htracks.makings_eq]
    rw [← Scopes.heeds_congr hmakings]
    refine hreflects.not_heeds_sibling (hsize ▸ isChild_surroundings)
      (isChild_of_before hfull) (.refl _) (Nat.ne_of_gt ?_)
    rwa [hsize, htracks.makings_eq, ← htracks.size]
  rw [State.isCancelled, htracks'.cancelled_iff htracks'.shared, Scopes.heeds_congr hmakings]
  simp only [cancel_mem_surroundings, List.mem_append, htracks.cancels]
  constructor
  · rintro (⟨j, (hj | ⟨rfl, -⟩) | hj, hheeds⟩ | ⟨hcancelled, -⟩)
    · exact .inr ⟨j, .inl hj, hheeds⟩
    · exact absurd hheeds hapart
    · exact .inr ⟨j, .inr hj, hheeds⟩
    · exact .inl hcancelled
  · rintro (hcancelled | ⟨j, hj, hheeds⟩)
    · exact .inr ⟨hcancelled, .refl⟩
    · exact .inl ⟨j, hj.imp_left .inl, hheeds⟩

/-- Of all scopes a run cancels only the one that it has made for its jobs, and thereby those that
stem from it, which none does that was there before, such as the caller's.  Every other scope is
cancelled exactly if others have cancelled one that it heeds, before the run or meanwhile, however
the run and its jobs fare.  The scope of the jobs is cancelled for good once the run has returned or
was given up.  A later run in the same scope finds that as others have left it, and is cancelled by
its own failure and by others, but not by that of the run before. -/
theorem cancels_shared_only (hacts : Possible acts) (hcaller : caller < (after acts).size)
    (h : Unfolds u (Fleet.start u (after acts) caller) hs dropped s) :
    (∀ i < s.scopes.size, ¬ Stems (surroundings acts caller hs) i s.shared →
      (s.scopes.cancelled i = true ↔
        ∃ j, .cancel j ∈ acts ++ others hs ∧ Heeds (surroundings acts caller hs) i j)) ∧
    caller < s.shared ∧ (∀ i < s.shared, ¬ Stems (surroundings acts caller hs) i s.shared) ∧
    (s.closed = true ∨ dropped = true →
      (∀ i < s.scopes.size, Stems (surroundings acts caller hs) i s.shared →
        s.scopes.cancelled i = true) ∧
      ∀ hs' dropped' t, Unfolds u s hs' dropped' t → t.isCancelled = true) ∧
    ∀ u' : Setup Q A R, ((Fleet.start u' s.scopes caller).isCancelled = true ↔
        ∃ j, .cancel j ∈ acts ++ others hs ∧ Heeds (surroundings acts caller hs) caller j) ∧
      ∀ hs' dropped' t, Unfolds u' (Fleet.start u' s.scopes caller) hs' dropped' t →
        (t.isCancelled = true ↔ t.HasCancelled ∨ ∃ j, .cancel j ∈ acts ++ others hs ++ others hs' ∧
          Heeds (surroundings (surroundings acts caller hs) caller hs') t.shared j) := by
  obtain ⟨full, htracks⟩ := h.exists_tracks hacts hcaller
  have hshared : s.shared = (makings acts).length := h.shared_eq.trans (Scopes.size_after hacts)
  have hchild : IsChild (surroundings acts caller hs) s.shared caller :=
    hshared ▸ isChild_surroundings
  have hreflects := Scopes.reflects_after htracks.possible_known
  have hbefore : caller < s.shared := by rwa [hshared, ← Scopes.size_after hacts]
  have hearlier : ∀ i < s.shared, ¬ Stems (surroundings acts caller hs) i s.shared :=
    fun i hi hstems => hreflects.not_heeds_later hchild hi hstems.heeds
  have hothers : ∀ i < s.scopes.size, ¬ Stems (surroundings acts caller hs) i s.shared →
      (s.scopes.cancelled i = true ↔
        ∃ j, .cancel j ∈ acts ++ others hs ∧ Heeds (surroundings acts caller hs) i j) := by
    intro i hi hstems
    have hapart : ¬ Heeds (surroundings acts caller hs) i s.shared := by
      rwa [hreflects.heeds_iff_stems hchild (by rwa [hreflects.size, ← htracks.size])]
    rw [htracks.cancelled_iff hi, or_iff_left fun hown => hapart hown.2]
    simp only [cancel_mem_surroundings]
  have hends : s.closed = true ∨ dropped = true → ∀ i < s.scopes.size,
      Stems (surroundings acts caller hs) i s.shared → s.scopes.cancelled i = true :=
    fun hover i hi hstems =>
      (htracks.cancelled_iff hi).mpr (.inr ⟨htracks.atEnd hover, hstems.heeds⟩)
  refine ⟨hothers, hbefore, hearlier,
    fun hover => ⟨hends hover, fun hs' dropped' t ht =>
      ht.isCancelled (hends hover s.shared htracks.shared .refl)⟩, fun u' => ⟨?_, ?_⟩⟩
  · rw [isCancelled_start]
    exact hothers caller (Nat.lt_trans hbefore htracks.shared) (hearlier caller hbefore)
  · intro hs' dropped' t ht
    rw [shared_iff_of_tracks htracks hchild ht]
    simp only [List.mem_append, cancel_mem_surroundings]

end Unfolds

end Converge.Fleet

namespace Converge.Rehearsal

open Fleet

/-- One of two jobs fails, and the run returns; the caller's scope is as good as new for another. -/
theorem cancels_shared_only_of_clumsy : ∃ s,
    Unfolds clumsyPair (start clumsyPair (Scopes.after [.fresh]) 0) (untilReturn.map .move) false
      s ∧
    s.closed = true ∧ s.summary.failed = 1 ∧ s.isCancelled = true ∧
    s.scopes.cancelled 0 = false ∧ (start clumsyPair s.scopes 0).isCancelled = false := by
  have hsome : ((start clumsyPair (Scopes.after [.fresh]) 0).moves? clumsyPair
      untilReturn).isSome = true := by decide
  have h := Unfolds.start.moves (Option.some_get hsome).symm
  obtain ⟨hothers, hcaller, hbefore, hover, hagain⟩ :=
    h.cancels_shared_only (by decide) (by decide)
  have hquiet : [.fresh] ++ others (untilReturn.map .move) = [Scopes.Act.fresh] := rfl
  rw [List.nil_append, hquiet] at hothers hagain
  refine ⟨_, h, rfl, rfl, (hover (.inl rfl)).2 _ _ _ .start, ?_, ?_⟩
  · rw [← Bool.not_eq_true, hothers 0 (Nat.zero_lt_succ 1) (hbefore 0 hcaller)]
    simp
  · rw [← Bool.not_eq_true, (hagain clumsyPair).1]
    simp

end Converge.Rehearsal
