import Converge.Proofs.Fleet.Questions
import Converge.Proofs.Gate.Paths
import Converge.Proofs.Procedure.Publication
import Converge.Proofs.Provision.Prerequisites

/-!
# Paths in commands

A declared path gets into a command after it was joined to something: to the directory of the
configuration file, to the directory of a checkout, or to the directory that an image is built in.
Here the paths are read off the arguments of the commands, and compared with each other and with
the declaration.
-/

namespace Converge

open Command

/-! ## Joined paths -/

namespace Pathname

variable {p q : Pathname}

theorem isAbsolute_append (h : p.isAbsolute = true) (s : String) :
    (⟨p.text ++ s⟩ : Pathname).isAbsolute = true := by
  rw [isAbsolute, decide_eq_true_eq] at h ⊢
  obtain ⟨rest, hrest⟩ := List.head?_eq_some_iff.mp h
  show (p.text ++ s).toList.head? = some '/'
  rw [String.toList_append, hrest]
  rfl

/-- What is seen from an absolute path is absolute. -/
theorem isAbsolute_join (h : p.isAbsolute = true) (q : Pathname) :
    (p.join q).isAbsolute = true := by
  rw [join]
  split
  next hq => exact hq
  split
  next => exact isAbsolute_append h q.text
  next => exact isAbsolute_append (isAbsolute_append h "/") q.text

end Pathname

namespace Config

variable {c : Config} {p : Pathname}

theorem resolve_absolute (h : p.isAbsolute = true) : c.resolve p = p := if_pos h

theorem resolve_relative (h : p.isAbsolute = false) : c.resolve p = c.baseDir.join p := by
  rw [resolve, h]
  exact if_neg Bool.false_ne_true

theorem isAbsolute_resolve (h : c.baseDir.isAbsolute = true) (p : Pathname) :
    (c.resolve p).isAbsolute = true := by
  rw [resolve]
  split
  next hp => exact hp
  next => exact Pathname.isAbsolute_join h p

end Config

/-! ## Paths among arguments -/

namespace Command

/-- The paths in what follows the reference in a command that builds an image: the file after `-f`,
if that comes first, and the directory that comes last. -/
def buildPaths : List String → List Pathname
  | "-f" :: file :: args => ⟨file⟩ :: args.getLast?.toList.map Pathname.mk
  | args => args.getLast?.toList.map Pathname.mk

/-- The paths that a command has for arguments: the directory into which git clones or in which it
works, the file and the directory from which an image is built, and the file that is applied to a
cluster. -/
def paths (cmd : Command) : List Pathname :=
  match cmd.program, cmd.args with
  | "git", ["clone", _, dir] => [⟨dir⟩]
  | "git", "-C" :: dir :: _ => [⟨dir⟩]
  | "docker", "build" :: "-t" :: _ :: args => buildPaths args
  | "kubectl", ["--context", _, "apply", "-f", file] => [⟨file⟩]
  | "kubectl", ["--context", _, "--namespace", _, "apply", "-f", file] => [⟨file⟩]
  | _, _ => []

theorem buildPaths_file (file dir : Pathname) (args : List String) :
    buildPaths ("-f" :: file.text :: (args ++ [dir.text])) = [file, dir] := by
  rw [buildPaths, List.getLast?_concat]
  rfl

theorem buildPaths_of_head? {args : List String} (h : args.head? ≠ some "-f") (dir : Pathname) :
    buildPaths (args ++ [dir.text]) = [dir] := by
  rw [buildPaths, List.getLast?_concat]
  · rfl
  · intro file rest heq
    cases args with
    | nil => exact absurd (List.cons.inj heq).2 nofun
    | cons arg args =>
        obtain ⟨rfl, -⟩ := List.cons.inj heq
        exact h rfl

end Command

/-- The file that says how to build an image is joined to the directory in which it is built. -/
theorem Image.paths_build (i : Image) :
    i.build.paths = i.dockerfile.toList.map i.context.join ++ [i.context] := by
  rw [build_eq]
  cases i.dockerfile with
  | none =>
      refine buildPaths_of_head? ?_ i.context
      cases i.buildArgs.entries <;> simp
  | some f => exact buildPaths_file (i.context.join f) i.context _

example :
    (Image.build ⟨"shop/web:1", ⟨"src/web"⟩, some ⟨"Dockerfile"⟩, .ofList [("KEY", "1")]⟩).paths =
      [⟨"src/web/Dockerfile"⟩, ⟨"src/web"⟩] := by decide

theorem Manifest.paths_command (m : Manifest) : m.command.paths = [m.path] := by
  rw [command]
  cases m.space <;> rfl

/-! ## The commands of a resource -/

/-- The commands of a checkout. -/
def Checkout.commands (c : Checkout) : List Command := [c.clone, c.revParse, c.fetch, c.switch]

/-- The commands of an image. -/
def Image.commands (i : Image) : List Command := [i.inspect, i.build, i.push]

/-- All commands of a checkout are about the same directory. -/
theorem Checkout.paths_of_mem_commands {c : Checkout} {cmd : Command} (h : cmd ∈ c.commands) :
    cmd.paths = [c.dir] := by
  simp only [commands, List.mem_cons, List.not_mem_nil, or_false] at h
  rcases h with rfl | rfl | rfl | rfl <;> rfl

theorem Command.perform_asksOnly {S : Request → Prop} {cmd : Command} (h : S (.run cmd))
    (doing : String) : (cmd.perform doing).AsksOnly S := by
  refine .bind (.bind (.query h) ?_) ?_
  · exact fun _ => trivial
  · exact fun _ => trivial

namespace Resource

/-- The commands of a resource. -/
def commands : Resource → List Command
  | checkout c => c.commands
  | image i => i.commands
  | manifest m => [m.command]

/-- What the work on a resource may ask: for its commands to be run, and whether paths exist. -/
def MayAsk (r : Resource) : Request → Prop
  | .run cmd => cmd ∈ r.commands
  | .pathExists _ => True

theorem satisfied_asksOnly (r : Resource) : r.satisfied.AsksOnly r.MayAsk := by
  cases r with
  | checkout c =>
      show c.satisfied.AsksOnly _
      rw [Checkout.satisfied]
      split
      · refine .bind (.query trivial) fun cloned => ?_
        cases cloned with
        | false => trivial
        | true =>
            refine .bind (.query ?_) fun _ => trivial
            show c.revParse ∈ c.commands
            simp [Checkout.commands]
      · trivial
  | image i =>
      refine .bind (.query ?_) fun _ => trivial
      show i.inspect ∈ i.commands
      simp [Image.commands]
  | manifest m => trivial

theorem apply_asksOnly (r : Resource) : r.apply.AsksOnly r.MayAsk := by
  cases r with
  | checkout c =>
      have hcommands : ∀ cmd ∈ c.commands, (Resource.checkout c).MayAsk (.run cmd) :=
        fun _ hcmd => hcmd
      refine .bind (.query trivial) fun cloned => ?_
      refine .andThen ?_ fun _ => .andThen ?_ fun _ => ?_
      · cases cloned with
        | true => trivial
        | false => exact perform_asksOnly (hcommands _ (by simp [Checkout.commands])) _
      · split
        · exact perform_asksOnly (hcommands _ (by simp [Checkout.commands])) _
        · trivial
      · exact perform_asksOnly (hcommands _ (by simp [Checkout.commands])) _
  | image i =>
      have hcommands : ∀ cmd ∈ i.commands, (Resource.image i).MayAsk (.run cmd) :=
        fun _ hcmd => hcmd
      refine .andThen ?_ fun _ => ?_
      · exact perform_asksOnly (hcommands _ (by simp [Image.commands])) _
      · exact perform_asksOnly (hcommands _ (by simp [Image.commands])) _
  | manifest m => exact perform_asksOnly (List.mem_singleton_self m.command) _

end Resource

/-! ## The commands of a unit -/

/-- The commands that a unit of a configuration may run: those of its images, of their sources and
of its manifests. -/
inductive UnitSpec.Runs (c : Config) (u : UnitSpec) : Command → Prop
  | source {i : ImageSpec} {src : Checkout} {cmd : Command} (hi : i ∈ u.images)
      (hsrc : (i.node c).source = some src) (hcmd : cmd ∈ src.commands) : u.Runs c cmd
  | image {i : ImageSpec} {cmd : Command} (hi : i ∈ u.images)
      (hcmd : cmd ∈ (i.node c).image.commands) : u.Runs c cmd
  | manifest {m : ManifestSpec} (hm : m ∈ u.manifests) :
      u.Runs c (u.manifestNode c m).manifest.command

/-- The resources in the tree of a unit are those of its images, of their sources and of its
manifests. -/
theorem UnitSpec.runs_of_resource {c : Config} {u : UnitSpec} :
    ∀ r ∈ (u.node c).design.tree.resources, ∀ cmd ∈ r.commands, u.Runs c cmd := by
  show ∀ r ∈ (Declaration.unit (u.node c)).design.tree.resources, _
  have hparts : ∀ d, (Declaration.unit (u.node c)).Part d →
      ∀ r ∈ d.resource, ∀ cmd ∈ r.commands, u.Runs c cmd := by
    rw [UnitNode.forall_part, visited_node, List.forall_mem_map]
    refine ⟨nofun, fun i hi => ⟨?_, ?_⟩, ?_⟩
    · rintro _ ⟨⟩ cmd hcmd
      exact .image (mem_images_of_mem_order hi) hcmd
    · rintro src hsrc _ ⟨⟩ cmd hcmd
      exact .source (mem_images_of_mem_order hi) hsrc hcmd
    · show ∀ n ∈ u.manifests.map (u.manifestNode c), _
      rw [List.forall_mem_map]
      rintro m hm _ ⟨⟩ cmd hcmd
      obtain rfl := List.mem_singleton.mp hcmd
      exact .manifest hm
  rw [Blueprint.forall_resources_tree, Declaration.all_design]
  exact hparts

/-! ## Where a unit works -/

/-- An image is built in this directory: it is named last, and the file that says how to build the
image is joined to it. -/
structure ImageSpec.Placed (c : Config) (i : ImageSpec) (context : Pathname) : Prop where
  build : (i.node c).image.build.paths = i.dockerfile.toList.map context.join ++ [context]
  /-- With a source the directory is joined to the one directory that all commands of the source are
  about. -/
  source : ∀ s, i.source = some s → ∃ src dir, (i.node c).source = some src ∧
    (∀ cmd ∈ src.commands, cmd.paths = [dir]) ∧ context = dir.join i.context ∧
    (s.dir.isAbsolute = false → dir = c.baseDir.join s.dir) ∧
    (s.dir.isAbsolute = true → dir = s.dir)
  unsourced : i.source = none → (i.node c).source = none ∧
    (i.context.isAbsolute = false → context = c.baseDir.join i.context)
  absolute : i.context.isAbsolute = true → context = i.context
  absolute_dockerfile : ∀ f, i.dockerfile = some f → f.isAbsolute = true →
    (i.node c).image.build.paths = [f, context]

theorem ImageSpec.placed (c : Config) (i : ImageSpec) : i.Placed c (i.buildContext c) where
  build := Image.paths_build _
  source := by
    intro s hs
    have hsrc : i.checkout c = some ⟨s.url, s.rev, c.resolve s.dir⟩ := by rw [checkout, hs]; rfl
    refine ⟨_, c.resolve s.dir, hsrc, fun _ => Checkout.paths_of_mem_commands, ?_,
      Config.resolve_relative, Config.resolve_absolute⟩
    rw [buildContext, hsrc]
  unsourced := by
    intro hnone
    have hsrc : i.checkout c = none := by rw [checkout, hnone]; rfl
    refine ⟨hsrc, fun hcontext => ?_⟩
    rw [buildContext, hsrc]
    exact Config.resolve_relative hcontext
  absolute := by
    intro hcontext
    rw [buildContext]
    split
    next => exact Pathname.join_absolute hcontext
    next => exact Config.resolve_absolute hcontext
  absolute_dockerfile := by
    intro f hf habsolute
    rw [Image.paths_build]
    show i.dockerfile.toList.map (i.buildContext c).join ++ [i.buildContext c] = _
    rw [hf, Option.toList_some, List.map_singleton, Pathname.join_absolute habsolute]
    rfl

/-- If the directory of the configuration file is absolute, then so are all paths in commands. -/
theorem UnitSpec.Runs.isAbsolute {c : Config} {u : UnitSpec} {cmd : Command} (h : u.Runs c cmd)
    (hbase : c.baseDir.isAbsolute = true) : ∀ p ∈ cmd.paths, p.isAbsolute = true := by
  have hresolve := Config.isAbsolute_resolve hbase
  cases h with
  | @source i src cmd hi hsrc hcmd =>
      obtain ⟨s, -, rfl⟩ := Option.map_eq_some_iff.mp hsrc
      rw [Checkout.paths_of_mem_commands hcmd, List.forall_mem_singleton]
      exact hresolve s.dir
  | @image i cmd hi hcmd =>
      have hcontext : (i.buildContext c).isAbsolute = true := by
        rw [ImageSpec.buildContext]
        split
        next src hsrc =>
          obtain ⟨s, -, rfl⟩ := Option.map_eq_some_iff.mp hsrc
          exact Pathname.isAbsolute_join (hresolve s.dir) i.context
        next => exact hresolve i.context
      simp only [Image.commands, List.mem_cons, List.not_mem_nil, or_false] at hcmd
      rcases hcmd with rfl | rfl | rfl
      · exact List.forall_mem_nil _
      · rw [(i.placed c).build, List.forall_mem_append, List.forall_mem_singleton,
          List.forall_mem_map]
        exact ⟨fun f _ => Pathname.isAbsolute_join hcontext f, hcontext⟩
      · exact List.forall_mem_nil _
  | @manifest m hm =>
      rw [Manifest.paths_command, List.forall_mem_singleton]
      exact hresolve m.path

/-- The paths in the commands of a configuration agree with each other and with the declaration.
All commands of a source are about one directory, and the directory that an image is built in is
joined to it; the file that says how to build the image is joined to the directory that is given
last; and absolute paths are passed on as they were declared.  In every run of units of the
configuration each command is one of those, and if the directory of the configuration file is
absolute, then no path in it is relative. -/
theorem Config.paths_agree (c : Config) :
    (∀ i : ImageSpec, ∃ context, (i.node c).image.context = context ∧ i.Placed c context) ∧
    (∀ (u : UnitSpec) (m : ManifestSpec), ∃ path,
      (u.manifestNode c m).manifest.command.paths = [path] ∧
      (m.path.isAbsolute = false → path = c.baseDir.join m.path) ∧
      (m.path.isAbsolute = true → path = m.path)) ∧
    ∀ {ω : Type} {solo : Environment.Solo ω} {selected : List (String × Declaration)}
      {jobs : List (Job Resource)} {policy : Policy} {limit : Nat} {tasks : Numbering}
      {scopes : Scopes} {caller i : Nat} {s : Fleet.State Request Request.Answer Resource} {cmd : Command},
      (∀ x ∈ selected, x ∈ c.registry.entries) →
      (Stretch.build selected solo).result = .ok jobs →
      Fleet.Reachable ⟨Resource.provider, policy, limit, jobs, tasks⟩
        (Fleet.start ⟨Resource.provider, policy, limit, jobs, tasks⟩ scopes caller) s →
      .asked i (.run cmd) ∈ s.history →
      ∃ u ∈ c.units, (jobs[i]?).map Job.name = some u.name ∧ u.Runs c cmd ∧
        (c.baseDir.isAbsolute = true → ∀ p ∈ cmd.paths, p.isAbsolute = true) := by
  refine ⟨fun i => ⟨_, rfl, i.placed c⟩, fun u m => ⟨_, Manifest.paths_command _,
    Config.resolve_relative, Config.resolve_absolute⟩, ?_⟩
  intro ω solo selected jobs policy limit tasks scopes caller i s cmd hselect hbuild h hasked
  obtain ⟨job, hjob, r, hr, hcmd⟩ := h.resource_of_asked hasked
    fun r => ⟨r.satisfied_asksOnly, r.apply_asksOnly⟩
  obtain ⟨u, hu, rfl⟩ := Config.unit_of_job hselect hbuild hjob
  have hruns : u.Runs c cmd := UnitSpec.runs_of_resource r hr cmd hcmd
  exact ⟨u, hu, by rw [hjob]; rfl, hruns, hruns.isAbsolute⟩

/-! ## A source beside its configuration file -/

namespace Rehearsal

open Fleet

/-- A configuration file in an absolute directory.  The source of its image, the directory that the
image is built in and the file that says how are given by relative paths. -/
def hut : Config where
  defaults := ⟨none, some "prod", none⟩
  options := ⟨none, .skipSubtree⟩
  units := [{
    name := "hut"
    images := [⟨"roof", "hut/roof", "1", ⟨"app"⟩, some ⟨"docker/Dockerfile"⟩, .empty,
      some ⟨"git@forge:hut", "main", ⟨"src"⟩⟩⟩]
    manifests := [⟨"app", ⟨"app.yaml"⟩, none, none, ["roof"]⟩] }]
  baseDir := ⟨"/srv/hut"⟩

def hutSetup : Setup Request Request.Answer Resource where
  provider := Resource.provider
  policy := .skipSubtree
  limit := 1
  jobs := hut.units.map fun u => ⟨u.name, (u.node hut).design.tree⟩
  tasks := .inTurn 1

/-- The command that builds the image. -/
def hoist : Command := ⟨"docker", ["build", "-t", "hut/roof:1", "-f",
  "/srv/hut/src/app/docker/Dockerfile", "/srv/hut/src/app"], none⟩

theorem mem_history_of_asksFor {d : Command} {s : State Request Request.Answer Resource}
    (h : asksFor d s = true) : .asked 0 (.run d) ∈ s.history := by
  unfold asksFor at h
  split at h
  next e earlier hhistory =>
    obtain rfl : e = d := of_decide_eq_true h
    rw [hhistory]
    exact List.mem_cons_self
  next => cases h

/-- The image is built in the end, in a directory below that of its source, and all paths that it
takes are absolute. -/
theorem paths_agree_of_hut : ∃ s, Reachable hutSetup (start hutSetup .one 0) s ∧
    .asked 0 (.run hoist) ∈ s.history ∧
    ∃ u ∈ hut.units, u.Runs hut hoist ∧ (∀ p ∈ hoist.paths, p.isAbsolute = true) ∧
      ∃ i ∈ u.images, ∃ src dir context, (i.node hut).source = some src ∧
        (∀ cmd ∈ src.commands, cmd.paths = [dir]) ∧ dir = ⟨"/srv/hut/src"⟩ ∧
        context = dir.join i.context ∧
        hoist.paths = [context.join ⟨"docker/Dockerfile"⟩, context] := by
  have hrun : ((start hutSetup .one 0).moves? hutSetup untilBuild).any (asksFor hoist) = true := by
    decide +kernel
  obtain ⟨s, hs, hasks⟩ := (Option.any_eq_true _ _).mp hrun
  have h : Reachable hutSetup (start hutSetup .one 0) s := reachable_moves? .start hs
  have hasked := mem_history_of_asksFor hasks
  have hbuild : (Stretch.build hut.registry.entries ⟨(), .one, 0, 0, none⟩).result =
      .ok hutSetup.jobs := rfl
  obtain ⟨hplaced, -, hruns⟩ := Config.paths_agree hut
  obtain ⟨u, hu, -, hcommand, habsolute⟩ := hruns (fun _ hx => hx) hbuild h hasked
  obtain rfl := List.mem_singleton.mp hu
  obtain ⟨context, -, hat⟩ := hplaced ⟨"roof", "hut/roof", "1", ⟨"app"⟩,
    some ⟨"docker/Dockerfile"⟩, .empty, some ⟨"git@forge:hut", "main", ⟨"src"⟩⟩⟩
  obtain ⟨src, dir, hsrc, hcommands, hcontext, hdir, -⟩ := hat.source _ rfl
  exact ⟨s, h, hasked, _, List.mem_cons_self, hcommand, habsolute rfl, _, List.mem_cons_self, src,
    dir, context, hsrc, hcommands, hdir (by decide), hcontext, hat.build⟩

end Rehearsal

end Converge
