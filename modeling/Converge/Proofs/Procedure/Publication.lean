import Converge.Proofs.Catalog
import Converge.Proofs.Procedure.Stages
import Converge.Proofs.Text.Bytes
import Converge.Registry

/-!
# How an image is published

An image is built and then pushed, under the reference for which the registry is asked.  Of the
build arguments that were set, those count that were set last; the command to build the image has
them in the order of their keys, so that it does not show in what order they were set.
-/

namespace Converge

namespace Image

/-- The image after these build arguments were set, one after the other. -/
def withBuildArgs (i : Image) (args : List (String × String)) : Image :=
  args.foldl (fun i arg => i.withBuildArg arg.1 arg.2) i

theorem withBuildArgs_eq (reference : String) (context : Pathname) (dockerfile : Option Pathname)
    (args : List (String × String)) :
    withBuildArgs ⟨reference, context, dockerfile, .empty⟩ args =
      ⟨reference, context, dockerfile, .ofList args⟩ := by
  induction args using List.reverseRecOn with
  | nil => rfl
  | append_singleton args arg ih =>
      rw [Catalog.ofList_append_singleton, withBuildArgs, List.foldl_append]
      show (withBuildArgs _ args).withBuildArg arg.1 arg.2 = _
      rw [ih]
      rfl

/-- The stages of publishing an image. -/
def stages (i : Image) : List Stage :=
  [⟨i.build, "building " ++ i.reference⟩, ⟨i.push, "pushing " ++ i.reference⟩]

theorem apply_eq (i : Image) : i.apply = Stage.performAll i.stages := by
  rw [stages, Stage.performAll_cons, Stage.performAll_singleton]
  rfl

theorem build_eq (i : Image) :
    i.build = ⟨"docker", ["build", "-t", i.reference] ++
      (i.dockerfile.elim [] fun f => ["-f", (i.context.join f).text]) ++
      (i.buildArgs.entries.flatMap fun arg => ["--build-arg", arg.1 ++ "=" ++ arg.2]) ++
      [i.context.text], none⟩ := by
  rw [build]
  cases i.dockerfile <;> rfl

end Image

/-- An image is asked for, built and pushed under one reference.  The command to build it has one
build argument for every key, in the order of the bytes of the keys, with the value that was set
last; and the same image comes of all ways to set build arguments that give the same last values.
To apply the image is to build it and then, if that went well, to push it: it is a success if both
went well. -/
theorem Image.publication (reference : String) (context : Pathname)
    (dockerfile : Option Pathname) (args : List (String × String)) :
    ∃ (i : Image) (entries : List (String × String)),
      i = withBuildArgs ⟨reference, context, dockerfile, .empty⟩ args ∧
      entries.Pairwise (fun e f => Text.bytes e.1 < Text.bytes f.1) ∧
      (∀ key value, (key, value) ∈ entries ↔ args.reverse.lookup key = some value) ∧
      i.inspect = ⟨"docker", ["manifest", "inspect", reference], none⟩ ∧
      i.build = ⟨"docker", ["build", "-t", reference] ++
        (dockerfile.elim [] fun f => ["-f", (context.join f).text]) ++
        (entries.flatMap fun e => ["--build-arg", e.1 ++ "=" ++ e.2]) ++ [context.text], none⟩ ∧
      i.push = ⟨"docker", ["push", reference], none⟩ ∧
      (∀ (σ : Type) (answer : (q : Command.Request) → σ → q.Answer × σ) (s : σ),
        i.satisfied.asked answer s = [.run i.inspect] ∧
        ∃ replies : Replies, i.apply.exchanges answer s = replies.exchanges ∧
          Stage.Performed
            [⟨i.build, "building " ++ reference⟩, ⟨i.push, "pushing " ++ reference⟩] replies
            (i.apply.run answer s).1) ∧
      ∀ args', (∀ key, args'.reverse.lookup key = args.reverse.lookup key) →
        withBuildArgs ⟨reference, context, dockerfile, .empty⟩ args' = i := by
  have hordered : (Catalog.ofList args).Ordered := Catalog.ordered_ofList args
  refine ⟨⟨reference, context, dockerfile, .ofList args⟩, (Catalog.ofList args).entries,
    (withBuildArgs_eq _ _ _ _).symm, ?_, ?_, rfl, build_eq _, rfl, ?_, ?_⟩
  · exact hordered.imp fun hlt => Text.bytes_lt_iff.mpr hlt
  · intro key value
    rw [hordered.mem_entries, Catalog.find?_ofList]
  · intro σ answer s
    refine ⟨rfl, ?_⟩
    rw [apply_eq]
    exact Stage.exists_performed answer _ s
  · intro args' hargs
    rw [withBuildArgs_eq, Catalog.ofList_congr hargs]

end Converge
