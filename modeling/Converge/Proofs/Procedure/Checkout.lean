import Converge.Proofs.Procedure
import Converge.Proofs.Reference.Reading
import Converge.Resource.Checkout

/-!
# What a checkout leads to

After a revision has been checked out, the directory should be found at that revision.  Git names a
commit by its hash in small letters; a hash may be given in capital letters too, and is recognized
and checked out, but what git says of it is compared letter by letter.
-/

namespace Converge

variable {σ : Type}

/-! ## Small letters -/

namespace Reference

variable {ch : Char}

theorem toNat_toLower (ch : Char) :
    ch.toLower.toNat = if isUpper ch = true then ch.toNat + 32 else ch.toNat := by
  have hupper : isUpper ch = true ↔ ch.val ≥ 'A'.val ∧ ch.val ≤ 'Z'.val := by
    rw [isUpper, Bool.and_eq_true, decide_eq_true_iff, decide_eq_true_iff]
    exact Iff.rfl
  by_cases h : ch.val ≥ 'A'.val ∧ ch.val ≤ 'Z'.val
  · have hlower : ch.toLower.val = ch.val + 32 := congrArg Char.val (dif_pos h)
    have hz : ch.val.toNat ≤ 'Z'.toNat := h.2
    rw [if_pos (hupper.mpr h), Char.toNat, hlower]
    exact Nat.mod_eq_of_lt (Nat.lt_of_le_of_lt (Nat.add_le_add_right hz 32) (by decide))
  · have hlower : ch.toLower = ch := dif_neg h
    rw [if_neg (mt hupper.mp h), hlower]

theorem toLower_eq_self_iff : ch.toLower = ch ↔ isUpper ch = false := by
  rw [← Char.toNat_inj, toNat_toLower]
  cases isUpper ch <;> simp

theorem isVisible_toLower (h : isVisible ch = true) : isVisible ch.toLower = true := by
  rw [isVisible_iff, toNat_toLower]
  rw [isVisible_iff] at h
  split
  next hupper =>
    rw [isUpper, Bool.and_eq_true, decide_eq_true_iff, decide_eq_true_iff] at hupper
    have hz : ch.toNat ≤ 'Z'.toNat := hupper.2
    exact ⟨Nat.le_add_right_of_le h.1, Nat.le_trans (Nat.add_le_add_right hz 32) (by decide)⟩
  next => exact h

end Reference

/-- A line is left as it is when its end is cut off, if there are no blanks in it. -/
theorem Text.trim_line {cs : List Char} (h : ∀ ch ∈ cs, isBlank ch = false) :
    trim (String.ofList cs ++ "\n") = String.ofList cs := by
  have hfront : ∀ ds : List Char, (∀ ch ∈ ds, isBlank ch = false) → ds.dropWhile isBlank = ds := by
    intro ds hds
    cases ds with
    | nil => rfl
    | cons d ds => exact List.dropWhile_cons_of_neg (by simp [hds d List.mem_cons_self])
  have htail : dropTail isBlank (cs ++ ['\n']) = cs := by
    rw [dropTail, List.reverse_append, List.reverse_singleton, List.singleton_append,
      List.dropWhile_cons_of_pos (by decide), hfront _ fun ch hch => h ch (List.mem_reverse.mp hch),
      List.reverse_reverse]
  rw [trim, String.toList_append, String.toList_ofList]
  show String.ofList (dropTail isBlank ((cs ++ ['\n']).dropWhile isBlank)) = String.ofList cs
  rw [List.dropWhile_append, hfront cs h]
  cases cs with
  | nil => rfl
  | cons ch cs => rw [List.isEmpty_cons, if_neg Bool.false_ne_true, htail]

namespace Checkout

/-- A commit hash as git writes it, in small letters. -/
def canonical (rev : String) : String := String.ofList (rev.toList.map Char.toLower)

/-- No letter of the revision is a capital. -/
def isCanonical (rev : String) : Bool := rev.toList.all fun ch => !Reference.isUpper ch

theorem canonical_eq_self_iff {rev : String} : canonical rev = rev ↔ isCanonical rev = true := by
  have hmap : rev.toList.map Char.toLower = rev.toList ↔ ∀ ch ∈ rev.toList, ch.toLower = ch := by
    conv => lhs; rhs; rw [← List.map_id rev.toList]
    exact List.map_inj_left
  rw [canonical, ← String.toList_inj, String.toList_ofList, hmap, isCanonical, List.all_eq_true]
  simp only [Reference.toLower_eq_self_iff, Bool.not_eq_true']

/-- Nothing of a hash gets lost when the end of its line is cut off. -/
theorem trim_canonical {rev : String} (h : isCommitHash rev = true) :
    Text.trim (canonical rev ++ "\n") = canonical rev := by
  rw [isCommitHash, Bool.and_eq_true, List.all_eq_true] at h
  refine Text.trim_line fun ch hch => ?_
  obtain ⟨digit, hdigit, rfl⟩ := List.mem_map.mp hch
  have hletter := Reference.isAlphanumeric_of_isHexadecimal (h.2 digit hdigit)
  exact Reference.isBlank_of_isVisible
    (Reference.isVisible_toLower (Reference.isVisible_of_isAlphanumeric hletter))

end Checkout

/-! ## Git -/

/-- Is there a repository in the directory of the checkout? -/
def Checkout.IsThere (answer : (q : Command.Request) → σ → q.Answer × σ) (c : Checkout) (s : σ) :
    Prop := (answer (.pathExists c.marker) s).1 = true

/-- Git is at work in the world outside: `head` says which commit the repository in a directory is
at, by its hash. -/
structure HasGit (answer : (q : Command.Request) → σ → q.Answer × σ)
    (head : σ → Pathname → Option String) : Prop where
  /-- To look for a path changes nothing. -/
  look : ∀ p s, (answer (.pathExists p) s).2 = s
  /-- A clone that goes well leaves a repository in its directory. -/
  clone : ∀ (c : Checkout) s, Command.wentWell (answer (.run c.clone) s).1 = true →
    c.IsThere answer (answer (.run c.clone) s).2
  /-- A fetch that goes well takes none away. -/
  fetch : ∀ (c : Checkout) s, c.IsThere answer s →
    Command.wentWell (answer (.run c.fetch) s).1 = true →
    c.IsThere answer (answer (.run c.fetch) s).2
  /-- To check a commit out, if that goes well, leaves the repository at this commit. -/
  switch : ∀ (c : Checkout) s, Checkout.isCommitHash c.rev = true → c.IsThere answer s →
    Command.wentWell (answer (.run c.switch) s).1 = true →
    c.IsThere answer (answer (.run c.switch) s).2 ∧
      head (answer (.run c.switch) s).2 c.dir = some (Checkout.canonical c.rev)
  /-- The commit that a repository is at is written on a line. -/
  revParse : ∀ (c : Checkout) s hash, head s c.dir = some hash →
    ∃ stderr, (answer (.run c.revParse) s).1 = .ok ⟨some 0, hash ++ "\n", stderr⟩

namespace HasGit

variable {answer : (q : Command.Request) → σ → q.Answer × σ} {head : σ → Pathname → Option String}
  {c : Checkout} {s s' : σ}

theorem run_isCloned (h : HasGit answer head) (c : Checkout) (s : σ) :
    c.isCloned.run answer s = ((answer (.pathExists c.marker) s).1, s) :=
  Prod.ext rfl (h.look _ _)

/-- Whether the repository had to be cloned or was there and has been fetched anew, the last thing
that is done is to check the commit out in it. -/
theorem exists_switch (h : HasGit answer head) (hrev : Checkout.isCommitHash c.rev = true)
    (happly : c.apply.run answer s = (.ok (), s')) :
    ∃ t, c.IsThere answer t ∧ Command.wentWell (answer (.run c.switch) t).1 = true ∧
      s' = (answer (.run c.switch) t).2 := by
  rw [Checkout.apply, Plan.run_bind, h.run_isCloned] at happly
  cases hthere : (answer (.pathExists c.marker) s).1 with
  | true =>
      have hfetch : c.needsFetch (!true) = true := by simp [Checkout.needsFetch]
      rw [hthere, if_pos rfl, hfetch, Plan.ok_andThen, if_pos rfl] at happly
      obtain ⟨⟨⟩, t, hfetched, hswitched⟩ := (Plan.run_andThen_ok_iff _).mp happly
      obtain ⟨hwell, rfl⟩ := (Command.run_perform_ok_iff _ _ _).mp hfetched
      exact ⟨_, h.fetch c s hthere hwell, (Command.run_perform_ok_iff _ _ _).mp hswitched⟩
  | false =>
      have hfetch : c.needsFetch (!false) = false := by simp [Checkout.needsFetch, hrev]
      rw [hthere, if_neg Bool.false_ne_true, hfetch, if_neg Bool.false_ne_true] at happly
      obtain ⟨⟨⟩, t, hcloned, hswitched⟩ := (Plan.run_andThen_ok_iff _).mp happly
      obtain ⟨hwell, rfl⟩ := (Command.run_perform_ok_iff _ _ _).mp hcloned
      exact ⟨_, h.clone c s hwell, (Command.run_perform_ok_iff _ _ _).mp hswitched⟩

/-- In a repository that is at this commit, the commit is asked for and compared with the
revision. -/
theorem run_satisfied (h : HasGit answer head) (hrev : Checkout.isCommitHash c.rev = true)
    (hthere : c.IsThere answer s) (hhead : head s c.dir = some (Checkout.canonical c.rev)) :
    (c.satisfied.run answer s).1 = .ok (Checkout.isCanonical c.rev) ∧
      c.satisfied.asked answer s = [.pathExists c.marker, .run c.revParse] := by
  obtain ⟨stderr, hanswer⟩ := h.revParse c s _ hhead
  have hcloned : c.isCloned.run answer s = (true, s) := by
    rw [h.run_isCloned]
    exact congrArg (·, s) hthere
  have hcompared : decide (Checkout.canonical c.rev = c.rev) = Checkout.isCanonical c.rev := by
    rw [Bool.eq_iff_iff, decide_eq_true_iff, Checkout.canonical_eq_self_iff]
  rw [Checkout.satisfied, if_pos hrev, Plan.run_bind, Plan.asked_bind, hcloned, if_pos rfl,
    Plan.run_bind, Plan.asked_bind]
  constructor
  · rw [Plan.run_done, Command.run, Plan.run_query, hanswer]
    show Except.ok (true && decide (Text.trim (Checkout.canonical c.rev ++ "\n") = c.rev)) = _
    rw [Checkout.trim_canonical hrev, hcompared, Bool.true_and]
  · rfl

end HasGit

/-- Once a commit has been checked out with success, all that it takes to find out whether the
directory holds it is to ask git which commit that is at.  It is found to hold it exactly if no
letter of the hash was given as a capital. -/
theorem Checkout.satisfied_after_apply {answer : (q : Command.Request) → σ → q.Answer × σ}
    {head : σ → Pathname → Option String} (h : HasGit answer head) {c : Checkout}
    (hrev : Checkout.isCommitHash c.rev = true) {s s' : σ}
    (happly : c.apply.run answer s = (.ok (), s')) :
    (c.satisfied.run answer s').1 = .ok (Checkout.isCanonical c.rev) ∧
      c.satisfied.asked answer s' = [.pathExists c.marker, .run c.revParse] := by
  obtain ⟨t, hthere, hwell, rfl⟩ := h.exists_switch hrev happly
  obtain ⟨hkept, hhead⟩ := h.switch c t hrev hthere hwell
  exact h.run_satisfied hrev hkept hhead

/-! ## Repositories without contents -/

namespace Rehearsal

/-- Directories that hold repositories, with the hash of the commit that each of them is at. -/
abbrev Clones : Type := List (String × String)

namespace Clones

/-- What is said where there is no repository. -/
def missing : Failure := .of "not a git repository"

/-- What git makes of its arguments.  There are no branches and no tags, and every commit can be
checked out; a new clone is at one with a hash of zeros. -/
def git (s : Clones) : List String → Except Failure Output × Clones
  | ["clone", _, dir] => (.ok .silent, (dir, String.ofList (List.replicate 40 '0')) :: s)
  | ["-C", dir, "checkout", "--detach", rev] =>
      match s.lookup dir with
      | some _ => (.ok .silent, (dir, Checkout.canonical rev) :: s)
      | none => (.error missing, s)
  | ["-C", dir, "rev-parse", "HEAD"] =>
      match s.lookup dir with
      | some hash => (.ok ⟨some 0, hash ++ "\n", ""⟩, s)
      | none => (.error missing, s)
  | _ => (.ok .silent, s)

/-- Git is the only program, and repositories are all that can be found. -/
def answer : (q : Command.Request) → Clones → q.Answer × Clones
  | .run c, s => git s c.args
  | .pathExists p, s => (s.any fun r => Pathname.join ⟨r.1⟩ ⟨".git"⟩ = p, s)

/-- The commit that the repository in a directory is at. -/
def head (s : Clones) (dir : Pathname) : Option String := s.lookup dir.text

variable (c : Checkout) (s : Clones)

theorem isThere_cons (hash : String) : c.IsThere answer ((c.dir.text, hash) :: s) := by
  simp [Checkout.IsThere, answer, Checkout.marker]

theorem answer_fetch : answer (.run c.fetch) s = (.ok .silent, s) := by
  rw [answer, Checkout.fetch]
  cases Checkout.isCommitHash c.rev <;> rfl

theorem answer_switch (hrev : Checkout.isCommitHash c.rev = true) :
    answer (.run c.switch) s = match s.lookup c.dir.text with
      | some _ => (.ok .silent, (c.dir.text, Checkout.canonical c.rev) :: s)
      | none => (.error missing, s) := by
  have htarget : c.target = c.rev := if_pos hrev
  rw [answer, Checkout.switch, htarget]
  rfl

theorem hasGit : HasGit answer head where
  look _ _ := rfl
  clone c s _ := isThere_cons c s _
  fetch c s hthere _ := by
    rw [answer_fetch]
    exact hthere
  switch c s hrev hthere hwell := by
    rw [answer_switch c s hrev] at hwell ⊢
    cases hlookup : s.lookup c.dir.text with
    | none =>
        rw [hlookup] at hwell
        cases hwell
    | some hash => exact ⟨isThere_cons c s _, List.lookup_cons_self⟩
  revParse c s hash hhead := by
    refine ⟨"", ?_⟩
    show (git s ["-C", c.dir.text, "rev-parse", "HEAD"]).1 = _
    rw [git, show s.lookup c.dir.text = some hash from hhead]

end Clones

/-- A checkout of the revision in a directory where nothing is yet. -/
def library (rev : String) : Checkout := ⟨"https://git.example.com/shop.git", rev, ⟨"src"⟩⟩

/-- The hash of a commit. -/
def release : String := "3f1c2a9e8b7d6c5f4a3b2c1d0e9f8a7b6c5d4e3f"

/-- The same hash, with one capital letter. -/
def capitalRelease : String := "3F1c2a9e8b7d6c5f4a3b2c1d0e9f8a7b6c5d4e3f"

/-- A commit given in small letters is found to be there after it has been checked out. -/
theorem satisfied_after_apply_of_release : ∃ s',
    HasGit Clones.answer Clones.head ∧ Checkout.isCommitHash release = true ∧
    (library release).apply.run Clones.answer [] = (.ok (), s') ∧
    ((library release).satisfied.run Clones.answer s').1 = .ok true ∧
    (library release).satisfied.asked Clones.answer s' =
      [.pathExists (library release).marker, .run (library release).revParse] := by
  have hrev : Checkout.isCommitHash release = true := by decide
  have happly : (library release).apply.run Clones.answer [] = (.ok (), _) := rfl
  have hcanonical : Checkout.isCanonical release = true := by decide
  obtain ⟨hresult, hasked⟩ := Checkout.satisfied_after_apply Clones.hasGit hrev happly
  exact ⟨_, Clones.hasGit, hrev, happly, hresult.trans (congrArg _ hcanonical), hasked⟩

/-- The same commit is not, if one of its letters is given as a capital. -/
theorem not_satisfied_after_apply_of_capital : ∃ s',
    HasGit Clones.answer Clones.head ∧ Checkout.isCommitHash capitalRelease = true ∧
    (library capitalRelease).apply.run Clones.answer [] = (.ok (), s') ∧
    Clones.head s' (library capitalRelease).dir = some release ∧
    ((library capitalRelease).satisfied.run Clones.answer s').1 = .ok false := by
  exact ⟨_, Clones.hasGit, by decide, rfl, by decide, rfl⟩

end Rehearsal

end Converge
