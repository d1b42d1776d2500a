import Converge.Proofs.Procedure.Stages
import Converge.Resource.Checkout

/-!
# How a directory is brought to a revision

The work on a checkout is a list of stages, which depends on two things: whether the directory holds
a repository already, and whether the revision is a full commit hash.  What is checked out is either
this commit or what was fetched right before, by the name of the branch or the tag.
-/

namespace Converge.Checkout

variable {σ : Type}

/-- The stages of the work on a checkout, if its directory holds a repository already or if it does
not.  A new clone has every commit, so that nothing more is fetched for a commit; a branch or a tag
is fetched by its name, whatever is there, and then what was fetched is checked out. -/
def stages (c : Checkout) (cloned : Bool) : List Stage :=
  (if cloned then [] else [⟨⟨"git", ["clone", c.url, c.dir.text], none⟩, "cloning " ++ c.url⟩]) ++
  if isCommitHash c.rev then
    (if cloned then
      [⟨c.git ["fetch", "--tags", "origin"], "fetching " ++ c.rev ++ " from " ++ c.url⟩]
    else []) ++
    [⟨c.git ["checkout", "--detach", c.rev], "checking out " ++ c.rev ++ " in " ++ c.dir.text⟩]
  else
    [⟨c.git ["fetch", "--tags", "origin", c.rev], "fetching " ++ c.rev ++ " from " ++ c.url⟩,
      ⟨c.git ["checkout", "--detach", "FETCH_HEAD"],
        "checking out " ++ c.rev ++ " in " ++ c.dir.text⟩]

/-- What is fetched and what is checked out are decided one after the other. -/
theorem stages_eq (c : Checkout) (cloned : Bool) :
    c.stages cloned = (if cloned then [] else [⟨c.clone, c.cloning⟩]) ++
      ((if c.needsFetch (!cloned) then [⟨c.fetch, c.fetching⟩] else []) ++
        [⟨c.switch, c.switching⟩]) := by
  cases hhash : isCommitHash c.rev with
  | true =>
      have hneeds : c.needsFetch (!cloned) = cloned := by simp [needsFetch, hhash]
      have hfetch : c.fetch = c.git ["fetch", "--tags", "origin"] := by simp [fetch, hhash]
      have hswitch : c.switch = c.git ["checkout", "--detach", c.rev] := by
        simp [switch, target, hhash]
      rw [stages, hneeds, hfetch, hswitch, if_pos hhash]
      rfl
  | false =>
      have hneeds : c.needsFetch (!cloned) = true := by simp [needsFetch, hhash]
      have hfetch : c.fetch = c.git ["fetch", "--tags", "origin", c.rev] := by simp [fetch, hhash]
      have hswitch : c.switch = c.git ["checkout", "--detach", "FETCH_HEAD"] := by
        simp [switch, target, hhash]
      rw [stages, hneeds, hfetch, hswitch, if_neg (Bool.eq_false_iff.mp hhash)]
      rfl

theorem apply_eq (c : Checkout) :
    c.apply = c.isCloned.bind fun cloned => Stage.performAll (c.stages cloned) := by
  rw [apply]
  congr
  funext cloned
  simp only [stages_eq, Stage.performAll_append, apply_ite Stage.performAll,
    Stage.performAll_singleton, Stage.performAll_nil]

/-- If the revision is not a commit, no command but the last of the stages checks anything out, and
the stage before it fetches the revision by its name. -/
theorem switch_of_stages {c : Checkout} {cloned : Bool} (hrev : isCommitHash c.rev = false)
    {n : Nat} {args : List String}
    (hn : ((c.stages cloned).map Stage.command)[n]? = some (c.git ("checkout" :: args))) :
    args = ["--detach", "FETCH_HEAD"] ∧ ∃ front,
      ((c.stages cloned).map Stage.command).take n =
        front ++ [c.git ["fetch", "--tags", "origin", c.rev]] := by
  cases cloned with
  | false =>
      simp only [stages, hrev] at hn ⊢
      match n, hn with
      | 0, hn => simp [git] at hn
      | 1, hn => simp [git] at hn
      | 2, hn =>
          have hargs : args = ["--detach", "FETCH_HEAD"] := by simpa [git, eq_comm] using hn
          exact ⟨hargs, [_], rfl⟩
      | n + 3, hn => simp at hn
  | true =>
      simp only [stages, hrev] at hn ⊢
      match n, hn with
      | 0, hn => simp [git] at hn
      | 1, hn =>
          have hargs : args = ["--detach", "FETCH_HEAD"] := by simpa [git, eq_comm] using hn
          exact ⟨hargs, [], rfl⟩
      | n + 2, hn => simp at hn

/-- The work on a checkout begins with a look whether there is a repository in the directory.  Then
the stages are gone through that this leads to, up to the first command that fails to run or does
not exit with code 0: it is a success if there is no such command and none is left, and otherwise
the failure says at which stage it happened.  What is checked out for a revision that is not a
commit is what was fetched right before, with success and by the name of the revision. -/
theorem apply_performs_stages (answer : (q : Command.Request) → σ → q.Answer × σ) (c : Checkout)
    (s : σ) :
    ∃ (cloned : Bool) (stages : List Stage) (replies : Replies),
      c.apply.exchanges answer s =
        ⟨.pathExists (c.dir.join ⟨".git"⟩), cloned⟩ :: replies.exchanges ∧
      stages =
        (if cloned then []
          else [⟨⟨"git", ["clone", c.url, c.dir.text], none⟩, "cloning " ++ c.url⟩]) ++
        (if isCommitHash c.rev then
          (if cloned then
            [⟨⟨"git", ["-C", c.dir.text, "fetch", "--tags", "origin"], none⟩,
              "fetching " ++ c.rev ++ " from " ++ c.url⟩]
          else []) ++
          [⟨⟨"git", ["-C", c.dir.text, "checkout", "--detach", c.rev], none⟩,
            "checking out " ++ c.rev ++ " in " ++ c.dir.text⟩]
        else
          [⟨⟨"git", ["-C", c.dir.text, "fetch", "--tags", "origin", c.rev], none⟩,
              "fetching " ++ c.rev ++ " from " ++ c.url⟩,
            ⟨⟨"git", ["-C", c.dir.text, "checkout", "--detach", "FETCH_HEAD"], none⟩,
              "checking out " ++ c.rev ++ " in " ++ c.dir.text⟩]) ∧
      Stage.Performed stages replies (c.apply.run answer s).1 ∧
      (isCommitHash c.rev = false → ∀ past r later args, replies = past ++ r :: later →
        r.1 = ⟨"git", ["-C", c.dir.text, "checkout"] ++ args, none⟩ →
          args = ["--detach", "FETCH_HEAD"] ∧
          ∃ before o, past = before ++
              [(⟨"git", ["-C", c.dir.text, "fetch", "--tags", "origin", c.rev], none⟩, .ok o)] ∧
            o.success = true) := by
  obtain ⟨cloned, hcloned⟩ : ∃ b, (answer (.pathExists c.marker) s).1 = b := ⟨_, rfl⟩
  obtain ⟨replies, hexchanges, hperformed⟩ := Stage.exists_performed answer (c.stages cloned)
    (answer (.pathExists c.marker) s).2
  have hrun : c.isCloned.run answer s = (cloned, (answer (.pathExists c.marker) s).2) :=
    Prod.ext hcloned rfl
  have hlook : c.isCloned.exchanges answer s = [⟨.pathExists c.marker, cloned⟩] := by
    rw [← hcloned]
    rfl
  refine ⟨cloned, c.stages cloned, replies, ?_, rfl, ?_,
    fun hrev past r later args hreplies hr => ?_⟩
  · rw [apply_eq, Plan.exchanges_bind, hlook, hrun, hexchanges]
    rfl
  · rw [apply_eq, Plan.run_bind, hrun]
    exact hperformed
  · have hswitch : r.1 = c.git ("checkout" :: args) := hr
    obtain ⟨hpast, hcommand, hwell⟩ := hperformed.before hreplies
    rw [hswitch] at hcommand
    obtain ⟨hargs, front, hfront⟩ := switch_of_stages hrev hcommand
    rw [hfront] at hpast
    obtain ⟨before, last, rfl, -, hlast⟩ := List.map_eq_append_iff.mp hpast
    obtain ⟨⟨_, reply⟩, rfl, rfl⟩ := List.map_eq_singleton_iff.mp hlast
    have hreply : Command.wentWell reply = true :=
      hwell _ (List.mem_append_right before List.mem_cons_self)
    cases reply with
    | error f => cases hreply
    | ok o => exact ⟨hargs, before, o, rfl, hreply⟩

end Converge.Checkout
