import Converge.Proofs.Fleet.Attribution
import Converge.Proofs.Fleet.Ledger

/-!
# Who has set to work

Whether a job had set to work when it was cancelled is read off the fault that it ended with: a
fault of a walk has an address below the top, and the one with which a job is turned away has not.
The ledger of permits agrees: a job that is turned away never took up a permit, and has done nothing
whatever.
-/

namespace Converge

variable {Q : Type} {A : Q → Type} {R : Type}

/-- A fault of a tree came after the work on the tree had begun. -/
theorem Fault.ArisesIn.isStarted {f : Fault} {root : String} (h : f.ArisesIn root) :
    f.isStarted = true := by
  obtain ⟨-, here, hhere, hhead⟩ := h
  rw [Fault.isStarted, hhere, Option.any_some, Address.isTop]
  cases hnames : here.names with
  | nil =>
      rw [hnames] at hhead
      cases hhead
  | cons name rest => rfl

namespace Fleet

variable {u : Setup Q A R} {s : State Q A R} {scopes : Scopes} {caller i : Nat}

/-- Had the job set to work, to judge by its outcome? -/
def Outcome.isStarted : Outcome → Bool
  | .returned (.error f) => f.isStarted
  | _ => true

theorem Outcome.isStarted_of_result {o : Outcome} {name : String} {f : Fault}
    (h : o.result name = .error f) : f.isStarted = o.isStarted := by
  cases o with
  | crashed how =>
      obtain rfl := Except.error.inj h
      rfl
  | returned r =>
      obtain rfl : r = .error f := h
      rfl

/-- If the work on a job ended with a fault, then after it had begun. -/
def FromWork (r : Except Fault Tally) : Prop := ∀ f, r = .error f → f.isStarted = true

/-- What the course of a job of the run ends with comes from work. -/
theorem Setup.course_fromWork {job : Job R} (hjob : u.jobs[i]? = some job) :
    (u.course i).Meets .free (fun _ r => FromWork r) () := by
  rw [Setup.course_eq hjob]
  refine (Course.meets_leads _).mono ?_
  rintro _ _ ⟨trace, hleads⟩ f rfl
  exact (Tree.arisesIn_of_converge hleads).isStarted

/-- After the deeds `h` of job `i` its stage says whether it has set to work, and so does its
outcome. -/
def Stage.Vouches (i : Nat) (h : List (Deed Q A R)) : Stage Q A R → Prop
  | fresh | entering | waiting | admitted => .began i ∉ h
  | working _ | asking _ _ => .began i ∈ h
  | leaving o | ended o | joined o =>
      (.began i ∈ h ∧ ∀ r, o = .returned r → FromWork r) ∨
        .began i ∉ h ∧ stepsIn h = [] ∧ o = State.notStarted

/-- A job that goes on vouches for what it has done. -/
theorem Goes.vouches {b b' : Bool} {g g' : Stage Q A R} {h ds : List (Deed Q A R)}
    (hgoes : Goes u i b b' g ds g')
    (hconducts : g.Conducts .free (fun _ r => FromWork r) () h) (hg : g.Vouches i h) :
    g'.Vouches i (ds ++ h) := by
  cases hgoes with
  | pass | queue | letOn => exact hg
  | takeUp | enter => exact List.mem_cons_self
  | turnAway | giveUp => exact .inr ⟨hg, hconducts.pending rfl, rfl⟩
  | handOn =>
      have hsteps : stepsIn h = [] := hconducts.pending rfl
      refine .inr ⟨?_, ?_, rfl⟩
      · simpa [Stage.Vouches] using hg
      · simpa [Deed.step?] using hsteps
  | finish =>
      refine .inl ⟨hg, ?_⟩
      rintro _ ⟨⟩
      exact hconducts.meets
  | crash =>
      refine .inl ⟨hg, fun r hr => ?_⟩
      cases hr
  | ask | pace | reply => exact List.mem_append_right _ hg
  | leave | join => simpa [Stage.Vouches, Deed.step?] using hg

namespace State

theorem mem_begun : i ∈ s.begun ↔ .began i ∈ deedsOf i s.history := by
  rw [begun, deedsOf, List.mem_filterMap, List.mem_filter]
  constructor
  · rintro ⟨d, hd, hbegan⟩
    cases d <;> cases hbegan
    exact ⟨List.mem_reverse.mp hd, by simp [Deed.job?]⟩
  · rintro ⟨hd, -⟩
    exact ⟨_, List.mem_reverse.mpr hd, rfl⟩

/-- A job that has taken no steps has made no calls. -/
theorem not_mem_calls {call : Call} {r : R} (h : stepsOf i s.history = []) :
    (i, call, r) ∉ s.calls := by
  intro hcall
  have hstep : Course.Step.left (.began call r) ∈ stepsOf i s.history :=
    List.mem_filterMap.mpr ⟨_, List.mem_reverse.mpr (mem_calls.mp hcall), rfl⟩
  rw [h] at hstep
  cases hstep

end State

namespace Reachable

theorem vouches (h : Reachable u (Fleet.start u scopes caller) s) {g : Stage Q A R}
    (hi : s.stages[i]? = some g) :
    g.Conducts .free (fun _ r => FromWork r) () (deedsOf i s.history) ∧
      g.Vouches i (deedsOf i s.history) := by
  have hlt : i < u.jobs.length := h.isSound.length ▸ State.lt_of_stage hi
  have hcourse := Setup.course_fromWork (u := u) (List.getElem?_eq_getElem hlt)
  refine h.keeps i (fun h _ g => g.Conducts .free (fun _ r => FromWork r) () h ∧ g.Vouches i h)
    (fun _ _ hg => hg) ?_ (sound_start u scopes caller) ?_ hi
  · rintro _ _ _ _ _ _ _ hgoes ⟨hconducts, hg⟩
    exact ⟨hgoes.conducts Monitor.free_onlyAsks.blind hcourse hconducts,
      hgoes.vouches hconducts hg⟩
  · intro g hg
    rw [stage_start hg, deedsOf_start]
    exact ⟨⟨trivial, fun _ => rfl, trivial, nofun⟩, List.not_mem_nil⟩

/-- A job that has not set to work has taken no steps. -/
theorem stepsOf_eq_nil (h : Reachable u (Fleet.start u scopes caller) s) (hi : i ∉ s.begun)
    {g : Stage Q A R} (hstage : s.stages[i]? = some g) : stepsOf i s.history = [] := by
  rw [State.mem_begun] at hi
  obtain ⟨hconducts, hg⟩ := h.vouches hstage
  cases g with
  | fresh | entering | waiting | admitted => exact hconducts.pending rfl
  | working | asking => exact absurd hg hi
  | leaving | ended | joined =>
      rcases hg with ⟨hbegan, -⟩ | ⟨-, hsteps, -⟩
      · exact absurd hbegan hi
      · exact hsteps

/-- The work on a job is over: either it had begun, and any fault comes from it, or the job was
turned away. -/
theorem outcome_cases (h : Reachable u (Fleet.start u scopes caller) s) {g : Stage Q A R}
    (hi : s.stages[i]? = some g) {o : Outcome} (ho : g.outcome? = some o) :
    (i ∈ s.begun ∧ ∀ r, o = .returned r → FromWork r) ∨
      i ∉ s.begun ∧ o = State.notStarted := by
  obtain ⟨-, hg⟩ := h.vouches hi
  rw [State.mem_begun]
  cases g with
  | leaving | ended | joined =>
      obtain rfl := Option.some.inj ho
      exact hg.imp id fun ⟨hbegan, _, heq⟩ => ⟨hbegan, heq⟩
  | _ => cases ho

/-- Whether a job that is over had set to work can be told from its outcome. -/
theorem isStarted_eq (h : Reachable u (Fleet.start u scopes caller) s) {g : Stage Q A R}
    (hi : s.stages[i]? = some g) {o : Outcome} (ho : g.outcome? = some o) :
    o.isStarted = decide (i ∈ s.begun) := by
  rcases h.outcome_cases hi ho with ⟨hbegun, hwork⟩ | ⟨hbegun, rfl⟩
  · rw [decide_eq_true hbegun]
    rcases o with (f | tally) | how
    · exact hwork _ rfl f rfl
    · rfl
    · rfl
  · rw [decide_eq_false hbegun]
    rfl

end Reachable

end Fleet

end Converge
