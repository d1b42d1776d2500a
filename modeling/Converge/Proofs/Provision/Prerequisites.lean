import Converge.Program
import Converge.Proofs.Building
import Converge.Proofs.Fleet.Conduct
import Converge.Proofs.Procedure.Publication
import Converge.Proofs.Provision.Assembly

/-!
# What has to come before a command

In every run of units of a configuration without problems, a manifest is applied only after all of
the images that it lists were found in the registry or pushed to it, and an image is built only
after the revision of its source was found in place or checked out, by the same unit in the same
run.
-/

namespace Converge

open Fleet

variable {c : Config} {selected : List (String × Declaration)}
  {jobs : List (Job Resource)}

/-- The replies that job `i` has had. -/
def Fleet.repliesTo (i : Nat)
    (h : List (Deed Command.Request Command.Request.Answer Resource)) : Replies :=
  .ofSteps (stepsOf i h)

/-- Jobs are built from the units that they are named after. -/
theorem Config.unit_of_job {ω : Type} {s : Environment.Solo ω}
    (hselect : ∀ x ∈ selected, x ∈ c.registry.entries)
    (hbuild : (Stretch.build selected s).result = .ok jobs) {i : Nat} {job : Job Resource}
    (hjob : jobs[i]? = some job) :
    ∃ u ∈ c.units, job = ⟨u.name, (u.node c).design.tree⟩ := by
  rw [Job.eq_of_run_buildAll hbuild] at hjob
  obtain ⟨b, hb, rfl⟩ := List.mem_map.mp (List.mem_of_getElem? hjob)
  obtain ⟨x, hx, rfl⟩ := List.mem_map.mp hb
  obtain ⟨u, hu, rfl⟩ := Config.unit_of_mem_registry (hselect x hx)
  exact ⟨u, hu, rfl⟩

theorem Manifest.command_eq (m : Manifest) :
    m.command = ⟨"kubectl", ["--context", m.kubeContext] ++
      (m.space.elim [] fun space => ["--namespace", space]) ++ ["apply", "-f", m.path.text],
      none⟩ := by
  rw [command]
  cases m.space <;> rfl

/-- May a unit of the configuration run the command after these replies?  It applies its manifests
in their order, each one when all of the images that it lists are in the registry, and builds an
image when it has just asked for it and the source of the image, if there is one, is at its
revision. -/
def UnitSpec.MayRun (c : Config) (u : UnitSpec) (past : Replies) (cmd : Command) : Prop :=
  (cmd.isKubectl = true → ∃ m, u.manifests[past.applied]? = some m ∧
    cmd = (u.manifestNode c m).manifest.command ∧
    ∀ name ∈ m.images, ∃ image ∈ u.images, image.name = name ∧
      (∀ other ∈ u.images, other.name = name → other = image) ∧
      past.Ready (image.node c).image) ∧
  (cmd.isBuild = true → ∃ n image, past.inspected = n + 1 ∧ u.order[n]? = some image ∧
    image ∈ u.images ∧ cmd = (image.node c).image.build ∧
    ∀ src, image.checkout c = some src → past.Sourced src)

/-- What the node of a sound unit may run is what the unit may run. -/
theorem UnitSpec.mayRun_of_node {u : UnitSpec} (hu : u.Sound) {past : Replies} {cmd : Command}
    (h : (u.node c).mayRun past cmd) : u.MayRun c past cmd := by
  constructor
  · intro hkubectl
    obtain ⟨_, hnode, hcmd, hready⟩ := h.1 hkubectl
    rw [UnitSpec.node, List.getElem?_map, Option.map_eq_some_iff] at hnode
    obtain ⟨m, hm, rfl⟩ := hnode
    refine ⟨m, hm, hcmd, fun name hname => ?_⟩
    obtain ⟨image, himage, hsame, hunique, hmem⟩ :=
      mem_manifestNode hu (List.mem_of_getElem? hm) hname
    exact ⟨image, himage, hsame, hunique, hready _ hmem⟩
  · intro hbuild
    obtain ⟨n, _, hinspected, hnode, hcmd, hsourced⟩ := h.2 hbuild
    rw [visited_node, List.getElem?_map, Option.map_eq_some_iff] at hnode
    obtain ⟨image, himage, rfl⟩ := hnode
    have hmem := mem_images_of_mem_order (List.mem_of_getElem? himage)
    exact ⟨n, image, hinspected, himage, hmem, hcmd, hsourced⟩

/-- In every run of units of a configuration without problems, whatever else goes on and however
it ends, a command that applies a manifest or builds an image comes only after its prerequisites
have been met in the work on the same unit.

For a manifest each of the images that it lists was found in the registry, or was built and then
pushed, under its own reference.  For an image with a source, the commit hash that is its revision
was found in the directory of the source, or the revision was checked out there. -/
theorem Config.prerequisites {ω : Type} {solo : Environment.Solo ω} {policy : Policy} {limit : Nat}
    {tasks : Numbering} {scopes : Scopes} {caller i : Nat} {cmd : Command}
    {s : State Command.Request Command.Request.Answer Resource}
    {later earlier : List (Deed Command.Request Command.Request.Answer Resource)}
    (hc : c.problems = []) (hselect : ∀ x ∈ selected, x ∈ c.registry.entries)
    (hbuild : (Stretch.build selected solo).result = .ok jobs)
    (h : Reachable ⟨Resource.provider, policy, limit, jobs, tasks⟩
      (start ⟨Resource.provider, policy, limit, jobs, tasks⟩ scopes caller) s)
    (hs : s.history = later ++ .asked i (.run cmd) :: earlier) :
    let past := repliesTo i earlier
    let build (image : ImageSpec) : Command :=
      ⟨"docker", ["build", "-t", image.reference c.defaults] ++
        (image.dockerfile.elim [] fun f => ["-f", ((image.buildContext c).join f).text]) ++
        (image.buildArgs.entries.flatMap fun arg => ["--build-arg", arg.1 ++ "=" ++ arg.2]) ++
        [(image.buildContext c).text], none⟩
    ∃ u ∈ c.units, (jobs[i]?).map Job.name = some u.name ∧
      (cmd.isKubectl = true → ∃ m, u.manifests[past.applied]? = some m ∧
        cmd = ⟨"kubectl", ["--context", (m.kubeContext <|> c.defaults.kubeContext).getD ""] ++
          ((m.space <|> c.defaults.space).elim [] fun space => ["--namespace", space]) ++
          ["apply", "-f", (c.resolve m.path).text], none⟩ ∧
        ∀ name ∈ m.images, ∃ image ∈ u.images, image.name = name ∧
          (∀ other ∈ u.images, other.name = name → other = image) ∧
          ((∃ o, (⟨"docker", ["manifest", "inspect", image.reference c.defaults], none⟩, .ok o) ∈
              past ∧ o.success = true) ∨
            ∃ o o', [(build image, .ok o),
                (⟨"docker", ["push", image.reference c.defaults], none⟩, .ok o')].Sublist past ∧
              o.success = true ∧ o'.success = true)) ∧
      (cmd.isBuild = true → ∃ n image, past.inspected = n + 1 ∧ u.order[n]? = some image ∧
        image ∈ u.images ∧ cmd = build image ∧
        ∀ src, image.source = some src →
          (Checkout.isCommitHash src.rev = true ∧
            ∃ o, (⟨"git", ["-C", (c.resolve src.dir).text, "rev-parse", "HEAD"], none⟩, .ok o) ∈
                past ∧ o.success = true ∧ Text.trim o.stdout = src.rev) ∨
          ∃ o, (⟨"git", ["-C", (c.resolve src.dir).text, "checkout", "--detach",
              if Checkout.isCommitHash src.rev then src.rev else "FETCH_HEAD"], none⟩, .ok o) ∈
                past ∧ o.success = true) := by
  intro past build
  have hargs : ∀ image : ImageSpec, (image.node c).image.build = build image := fun image =>
    Image.build_eq _
  obtain ⟨job, hjob⟩ := h.job_of_deed (i := i) (d := .asked i (.run cmd)) (by simp [hs]) rfl
  obtain ⟨u, hu, rfl⟩ := Config.unit_of_job hselect hbuild hjob
  have hmeets := (u.node c).meets_order policy
  rw [← Setup.course_eq (u := ⟨Resource.provider, policy, limit, jobs, tasks⟩) hjob] at hmeets
  have hmay := h.may_ask (u.node c).order_onlyAsks.blind hmeets hs
  rw [Monitor.after_ofReplies, List.nil_append] at hmay
  obtain ⟨hkubectl, hbuilds⟩ := UnitSpec.mayRun_of_node (Config.sound_of_problems hc hu) hmay
  refine ⟨u, hu, by rw [hjob]; rfl, fun hcmd => ?kubectl, fun hcmd => ?build⟩
  case kubectl =>
    obtain ⟨m, hm, rfl, hready⟩ := hkubectl hcmd
    refine ⟨m, hm, Manifest.command_eq _, fun name hname => ?_⟩
    obtain ⟨image, himage, hsame, hunique, hknown⟩ := hready name hname
    refine ⟨image, himage, hsame, hunique, ?_⟩
    rw [← hargs]
    exact hknown
  case build =>
    obtain ⟨n, image, hinspected, horder, himage, rfl, hsourced⟩ := hbuilds hcmd
    refine ⟨n, image, hinspected, horder, himage, hargs image, fun src hsrc => ?_⟩
    exact hsourced _ (by rw [ImageSpec.checkout, hsrc]; rfl)

/-! ## A unit with a single manifest -/

namespace Rehearsal

/-- A configuration of one unit, whose manifest lists an image that is built from a branch. -/
def shop : Config where
  defaults := ⟨some "registry.local", some "prod", none⟩
  options := ⟨none, .skipSubtree⟩
  units := [{
    name := "shop"
    images := [⟨"web", "shop/web", "1", ⟨"."⟩, none, .empty,
      some ⟨"git@forge:shop", "main", ⟨"src"⟩⟩⟩]
    manifests := [⟨"app", ⟨"app.yaml"⟩, none, none, ["web"]⟩] }]
  baseDir := ⟨"deploy"⟩

def shopSetup : Setup Command.Request Command.Request.Answer Resource where
  provider := Resource.provider
  policy := .skipSubtree
  limit := 1
  jobs := shop.units.map fun u => ⟨u.name, (u.node shop).design.tree⟩
  tasks := .inTurn 1

/-- Every command exits with the same code, and no path exists. -/
def exits (code : Int) : (q : Command.Request) → q.Answer
  | .run _ => .ok ⟨some code, "", ""⟩
  | .pathExists _ => false

/-- The image is not in the registry, and its source is cloned and checked out; then it is to be
built. -/
def untilBuild : List (Move Command.Request Command.Request.Answer) :=
  [.look 0, .enter 0] ++ List.replicate 5 (.goOn 0) ++ [.reply 0 (exits 1)] ++
    List.replicate 4 (.goOn 0) ++ [.reply 0 (exits 0), .goOn 0, .reply 0 (exits 0), .goOn 0,
    .reply 0 (exits 0), .goOn 0, .reply 0 (exits 0), .goOn 0, .goOn 0, .goOn 0]

/-- The image is built and pushed, and then the manifest is next. -/
def untilManifest : List (Move Command.Request Command.Request.Answer) :=
  untilBuild ++ [.reply 0 (exits 0), .goOn 0, .reply 0 (exits 0), .goOn 0, .goOn 0, .goOn 0]

/-- The command that applies the manifest. -/
def deploy : Command := ⟨"kubectl", ["--context", "prod", "apply", "-f", "deploy/app.yaml"], none⟩

/-- Is the command the last thing that was asked for? -/
def asksFor (c : Command) (s : State Command.Request Command.Request.Answer Resource) : Bool :=
  match s.history with
  | .asked 0 (.run d) :: _ => d = c
  | _ => false

/-- The manifest is applied in the end, and its image was found or built and pushed before. -/
theorem prerequisites_of_shop : ∃ s earlier, Reachable shopSetup (start shopSetup .one 0) s ∧
    s.history = .asked 0 (.run deploy) :: earlier ∧
    ((∃ o, (⟨"docker", ["manifest", "inspect", "registry.local/shop/web:1"], none⟩, .ok o) ∈
        repliesTo 0 earlier ∧ o.success = true) ∨
      ∃ o o', [(⟨"docker", ["build", "-t", "registry.local/shop/web:1", "deploy/src/."], none⟩,
          .ok o), (⟨"docker", ["push", "registry.local/shop/web:1"], none⟩, .ok o')].Sublist
            (repliesTo 0 earlier) ∧ o.success = true ∧ o'.success = true) := by
  have hrun : ((start shopSetup .one 0).moves? shopSetup untilManifest).any (asksFor deploy) =
      true := by
    decide +kernel
  obtain ⟨s, hs, hasks⟩ := (Option.any_eq_true _ _).mp hrun
  have h : Reachable shopSetup (start shopSetup .one 0) s := reachable_moves? .start hs
  unfold asksFor at hasks
  split at hasks
  · rename_i d earlier hhistory
    obtain rfl : d = deploy := of_decide_eq_true hasks
    have hproblems : shop.problems = [] := by decide +kernel
    have hselect : shop.registry.select none = .ok shop.registry.entries := rfl
    have hbuild : (Stretch.build shop.registry.entries ⟨(), .one, 0, 0, none⟩).result =
        .ok shopSetup.jobs := rfl
    have hasked : s.history = [] ++ .asked 0 (.run deploy) :: earlier := hhistory
    obtain ⟨u, hu, -, hkubectl, -⟩ := Config.prerequisites hproblems
      (fun x hx => Catalog.mem_of_mem_select hselect hx) hbuild h hasked
    obtain ⟨m, hm, -, hready⟩ := hkubectl rfl
    obtain rfl := List.mem_singleton.mp hu
    obtain rfl := List.mem_singleton.mp (List.mem_of_getElem? hm)
    obtain ⟨image, himage, -, -, hpushed⟩ := hready "web" List.mem_cons_self
    obtain rfl := List.mem_singleton.mp himage
    exact ⟨s, earlier, h, hhistory, hpushed⟩
  · cases hasks

end Rehearsal

end Converge
