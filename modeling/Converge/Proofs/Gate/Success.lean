import Converge.Proofs.Gate.Checks

/-!
# When the checks succeed

Unless the scope was cancelled before, trees are built exactly if all of their nodes are
well-formed, and then their resources pass exactly if all of those are: no fault of the two steps
is a cancellation.
-/

namespace Converge

variable {Q : Type} {A : Q → Type} {R α β σ : Type}

/-- The fault, if it ended with one, is not a cancellation. -/
def Uncut (r : Except Fault α) : Prop := ∀ f, r = .error f → f.isCancellation = false

theorem uncut_ok (a : α) : Uncut (.ok a : Except Fault α) := nofun

theorem uncut_error {f : Fault} (h : f.isCancellation = false) :
    Uncut (.error f : Except Fault α) := by
  rintro f ⟨⟩
  exact h

/-- What decides something and is not cut short succeeds exactly if it holds. -/
theorem Decided.iff {p : Prop} {r : Except Fault α} (h : Decided p r) (hr : Uncut r) :
    (∃ a, r = .ok a) ↔ p := by
  cases r with
  | ok a => exact ⟨fun _ => h, fun _ => ⟨a, rfl⟩⟩
  | error f =>
      constructor
      · rintro ⟨a, ha⟩
        cases ha
      · intro hp
        exact absurd (h hp) (by simp [hr f rfl])

/-- The monitor of courses whose scope is not cancelled. -/
def lasting : Monitor Q A R Unit where
  mayAsk _ _ := True
  answered _ _ _ := ()
  looked _ cancelled := if cancelled then none else some ()
  mayLeave _ _ := True
  left _ _ := ()

/-- As far as the monitor can tell, the course does not end as if it were cancelled. -/
abbrev Course.Uncut (M : Monitor Q A R Unit) (c : Course Q A R (Except Fault α)) : Prop :=
  c.Meets M (fun _ r => Converge.Uncut r) ()

namespace Course.Uncut

variable {M : Monitor Q A R Unit}

theorem bind {c : Course Q A R (Except Fault α)}
    {f : Except Fault α → Course Q A R (Except Fault β)} (h : c.Uncut M)
    (hok : ∀ a, (f (.ok a)).Uncut M)
    (herror : ∀ e, e.isCancellation = false → (f (.error e)).Uncut M) : (c.bind f).Uncut M := by
  refine Meets.bind h fun _ r hr => ?_
  cases r with
  | ok a => exact hok a
  | error e => exact herror e (hr e rfl)

theorem andThen {c : Course Q A R (Except Fault α)} {f : α → Course Q A R (Except Fault β)}
    (h : c.Uncut M) (hf : ∀ a, (f a).Uncut M) : (c.andThen f).Uncut M :=
  h.bind hf fun _ he => uncut_error he

theorem onBehalf {c : Course Q A R (Except Fault α)} (h : c.Uncut M) (name : String) :
    (Job.onBehalf name c).Uncut M := by
  refine h.bind (fun a => uncut_ok a) fun e he => uncut_error ?_
  rw [Fault.isCancellation_forUnit]
  exact he

theorem look {next : Bool → Course Q A R (Except Fault α)} (h : (next false).Uncut lasting) :
    (Course.look next).Uncut lasting := by
  rintro (_ | _) ⟨⟩ hy
  · exact h
  · cases hy

/-- Followed in a scope that is not cancelled, in a world whose answers do not cancel it. -/
theorem run {c : Course Q A R (Except Fault α)} (h : c.Uncut lasting) {w : World Q A σ}
    (hw : ∀ q s, w.cancelled (w.answer q s).2 = w.cancelled s) {s : σ}
    (hs : w.cancelled s = false) : Converge.Uncut (c.run w s).1 := by
  induction c generalizing s with
  | done r => exact h
  | ask q next ih => exact ih _ (h.2 _) (by rw [hw, hs])
  | look next ih =>
      rw [Course.run, hs]
      exact ih false (h false () rfl) hs
  | leave m next ih => exact ih h.2 hs

end Course.Uncut

/-! ## Building -/

namespace Blueprint

variable {H : Type}

theorem uncut_hook (q : Hook H) {fault : Failure → Fault}
    (h : ∀ f, (fault f).isCancellation = false) :
    (hook q fault : Building H R Unit).Uncut lasting := by
  refine ⟨trivial, fun a => ?_⟩
  cases a with
  | ok => exact uncut_ok ()
  | error f => exact uncut_error (h f)

mutual

theorem uncut_buildAt (above : Address) (b : Blueprint H R) : (b.buildAt above).Uncut lasting := by
  cases b with
  | node name hooks resource children =>
      refine .look ((uncut_hook _ fun _ => rfl).andThen fun _ => ?_)
      refine (uncut_hook _ fun _ => rfl).andThen fun _ => ?_
      exact (uncut_buildAll (above.child name) children).andThen fun built => uncut_ok _

theorem uncut_buildAll (above : Address) (bs : List (Blueprint H R)) :
    (buildAll above bs).Uncut lasting := by
  cases bs with
  | nil => exact uncut_ok []
  | cons b rest =>
      refine (uncut_buildAt above b).andThen fun t => ?_
      exact (uncut_buildAll above rest).andThen fun ts => uncut_ok _

end

theorem uncut_build (b : Blueprint H R) : b.build.Uncut lasting :=
  (uncut_buildAt .top b).andThen fun t => ⟨trivial, uncut_ok t⟩

end Blueprint

theorem Job.uncut_buildAll {H : Type} (bs : List (String × Blueprint H R)) :
    (buildAll bs).Uncut lasting := by
  induction bs with
  | nil => exact uncut_ok []
  | cons b rest ih =>
      refine (b.2.uncut_build.onBehalf b.1).andThen fun t => ?_
      exact ih.andThen fun jobs => uncut_ok _

/-! ## The stretches before a run -/

namespace Stretch

variable {ω : Type} {selected : List (String × Declaration)} {s : Environment.Solo ω}

/-- In a scope that is not cancelled, units are built exactly if all of their nodes are
well-formed. -/
theorem build_ok_iff (hs : s.isCancelled = false) :
    (∃ jobs, (build selected s).result = .ok jobs) ↔
      ∀ x ∈ selected, Design.Passes x.2.design := by
  have hbuild := Job.uncut_buildAll (selected.map fun x => (x.1, x.2.design))
  have huncut : Uncut (build selected s).result :=
    hbuild.run (w := verdicts.alone) (fun _ _ => rfl) hs
  exact (build_decided selected s).iff huncut

/-- The resources of jobs pass exactly if all of them are well-formed, whatever the scope says. -/
theorem check_ok_iff (env : Outside ω) (jobs : List (Job Resource)) :
    (check env jobs s).result = .ok () ↔
      ∀ job ∈ jobs, ∀ r ∈ job.tree.resources, r.validate = .ok () :=
  Job.validateAll_ok_iff (Resource.valid_iff env) jobs s

end Stretch

end Converge
