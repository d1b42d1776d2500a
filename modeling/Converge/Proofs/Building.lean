import Converge.Job
import Converge.Proofs.Monitor

/-!
# What is built

Checking a node and determining its children may fail, and building may be cancelled; but if it
succeeds, the tree is the one that was declared.
-/

namespace Converge

variable {Q : Type} {A : Q → Type} {H R α : Type}

namespace Blueprint

/-- A hook is asked for its verdict only. -/
theorem hook_secures (q : Hook H) (fault : Failure → Fault) :
    (hook q fault : Building H R Unit).Secures .free (fun _ _ => True) () := by
  refine ⟨trivial, fun a => ?_⟩
  cases a with
  | ok => exact Course.Secures.ok trivial
  | error f => exact Course.Secures.error

mutual

theorem buildAt_secures (above : Address) (b : Blueprint H R) :
    (b.buildAt above).Secures .free (fun _ t => t = b.tree) () := by
  obtain ⟨name, hooks, resource, children⟩ := b
  refine .look Monitor.free_onlyAsks fun cancelled => ?_
  cases cancelled with
  | true => exact Course.Secures.error
  | false =>
      refine (hook_secures _ _).andThen fun _ _ _ => ?_
      refine (hook_secures _ _).andThen fun _ _ _ => ?_
      refine (buildAll_secures (above.child name) children).andThen fun _ built hbuilt => ?_
      rw [hbuilt]
      exact .ok rfl

theorem buildAll_secures (above : Address) (bs : List (Blueprint H R)) :
    (buildAll above bs).Secures .free (fun _ ts => ts = trees bs) () := by
  cases bs with
  | nil => exact .ok rfl
  | cons b rest =>
      refine (buildAt_secures above b).andThen fun _ t ht => ?_
      refine (buildAll_secures above rest).andThen fun _ ts hts => ?_
      rw [ht, hts]
      exact .ok rfl

end

theorem build_secures (b : Blueprint H R) :
    b.build.Secures .free (fun _ t => t = b.tree) () := by
  refine (buildAt_secures .top b).andThen fun _ t ht => ?_
  exact .leave Monitor.free_onlyAsks (.ok ht)

end Blueprint

namespace Job

/-- The name of a unit is added to faults only. -/
theorem onBehalf_secures {M : Monitor Q A R α} {β : Type} {p : α → β → Prop} {x : α} {name : String}
    {c : Course Q A R (Except Fault β)} (h : c.Secures M p x) : (onBehalf name c).Secures M p x :=
  h.bind (fun _ _ => .ok) fun _ _ => .error

theorem buildAll_secures (bs : List (String × Blueprint H R)) :
    (buildAll bs).Secures .free (fun _ jobs => jobs = bs.map fun b => ⟨b.1, b.2.tree⟩) () := by
  induction bs with
  | nil => exact .ok rfl
  | cons b rest ih =>
      refine (onBehalf_secures b.2.build_secures).andThen fun _ t ht => ?_
      refine ih.andThen fun _ jobs hjobs => ?_
      rw [ht, hjobs]
      exact .ok rfl

/-- Whatever the hooks say and whenever the scope is cancelled, jobs that are built at all have
the trees that were declared, in the order in which they were given. -/
theorem eq_of_run_buildAll {τ : Type} {bs : List (String × Blueprint H R)}
    {w : Course.World (Hook H) Hook.Answer τ} {t : τ} {jobs : List (Job R)}
    (h : ((buildAll bs).run w t).1 = .ok jobs) : jobs = bs.map fun b => ⟨b.1, b.2.tree⟩ :=
  Course.Meets.run (buildAll_secures bs) Monitor.free_onlyAsks.blind w t jobs h

end Job

end Converge
