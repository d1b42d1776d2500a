import Converge.Proofs.Reference.Grammar

/-!
# The pattern of references

The grammar of references as one regular expression, with a named group for each of the three parts.
It matches what the grammar allows, and its groups match the parts.
-/

namespace Converge.Reference

/-- A regular expression, some parts of which are named groups. -/
inductive Pattern where
  | one (p : Char → Bool)
  | seq (p q : Pattern)
  | alt (p q : Pattern)
  | times (p : Pattern) (least : Nat) (most : Option Nat)
  | group (name : String) (p : Pattern)

/-- The names of groups, each with the text that it matches. -/
abbrev Captures : Type := List (String × List Char)

namespace Pattern

variable {p q : Pattern} {item sep l m : List Char → Prop} {cs : List Char} {groups : Captures}

/-! ## Matching -/

/-- The text consists of `n` texts that are matched, one after another. -/
def Repeated (matched : List Char → Captures → Prop) : Nat → List Char → Captures → Prop
  | 0, cs, groups => cs = [] ∧ groups = []
  | n + 1, cs, groups => ∃ ds es xs ys, cs = ds ++ es ∧ groups = xs ++ ys ∧ matched ds xs ∧
      Repeated matched n es ys

/-- The pattern can match the whole text so that its groups match these parts of it. -/
def Matches : Pattern → List Char → Captures → Prop
  | one p, cs, groups => One p cs ∧ groups = []
  | seq p q, cs, groups => ∃ ds es xs ys, cs = ds ++ es ∧ groups = xs ++ ys ∧ p.Matches ds xs ∧
      q.Matches es ys
  | alt p q, cs, groups => p.Matches cs groups ∨ q.Matches cs groups
  | times p least most, cs, groups => ∃ n, least ≤ n ∧ (∀ k, most = some k → n ≤ k) ∧
      Repeated p.Matches n cs groups
  | group name p, cs, groups => ∃ inner, p.Matches cs inner ∧ groups = (name, cs) :: inner

instance : Append Pattern := ⟨seq⟩

instance : OrOp Pattern := ⟨alt⟩

def char (c : Char) : Pattern := one (· == c)

def optional (p : Pattern) : Pattern := p.times 0 (some 1)

def many (p : Pattern) : Pattern := p.times 0 none

def many1 (p : Pattern) : Pattern := p.times 1 none

/-! ## References -/

def label : Pattern :=
  one isAlphanumeric |||
    one isAlphanumeric ++ (one fun c => isAlphanumeric c || c == '-').many ++ one isAlphanumeric

def hostName : Pattern := label ++ (char '.' ++ label).many

def separator : Pattern :=
  (one fun c => c == '.' || c == '_') ||| char '_' ++ char '_' ||| (char '-').many1

def component : Pattern := (one isWordChar).many1 ++ (separator ++ (one isWordChar).many1).many

def path : Pattern := component ++ (char '/' ++ component).many

def name : Pattern :=
  (hostName ++ (char ':' ++ (one isDigit).many1).optional ++ char '/').optional ++ path

def tag : Pattern :=
  (one fun c => isAlphanumeric c || c == '_') ++ (one isTagChar).times 0 (some 127)

def algorithmWord : Pattern := one isLetter ++ (one isAlphanumeric).many

def digest : Pattern :=
  algorithmWord ++ (one isAlgorithmSeparator ++ algorithmWord).many ++ char ':' ++
    (one isHexadecimal).times 32 none

/-- A whole reference, with groups for its three parts. -/
def reference : Pattern :=
  name.group "name" ++ (char ':' ++ tag.group "tag").optional ++
    (char '@' ++ digest.group "digest").optional

/-! ## Patterns without groups -/

/-- The pattern matches just these texts, and has no groups. -/
def Describes (p : Pattern) (l : List Char → Prop) : Prop :=
  ∀ cs groups, p.Matches cs groups ↔ groups = [] ∧ l cs

theorem repeated_iff (h : p.Describes l) {n : Nat} :
    Repeated p.Matches n cs groups ↔ groups = [] ∧
      ∃ parts : List (List Char), parts.length = n ∧ cs = parts.flatten ∧ ∀ x ∈ parts, l x := by
  induction n generalizing cs groups with
  | zero =>
      constructor
      · rintro ⟨rfl, rfl⟩
        exact ⟨rfl, [], rfl, rfl, List.forall_mem_nil _⟩
      · rintro ⟨rfl, parts, hlength, rfl, -⟩
        obtain rfl := List.eq_nil_of_length_eq_zero hlength
        exact ⟨rfl, rfl⟩
  | succ n ih =>
      constructor
      · rintro ⟨ds, es, xs, ys, rfl, rfl, hds, hes⟩
        obtain ⟨rfl, hl⟩ := (h ds xs).mp hds
        obtain ⟨rfl, parts, rfl, rfl, hparts⟩ := ih.mp hes
        exact ⟨rfl, ds :: parts, rfl, rfl, List.forall_mem_cons.mpr ⟨hl, hparts⟩⟩
      · rintro ⟨rfl, parts, hlength, rfl, hparts⟩
        cases parts with
        | nil => cases hlength
        | cons ds parts =>
            obtain ⟨hl, hparts⟩ := List.forall_mem_cons.mp hparts
            exact ⟨ds, parts.flatten, [], [], rfl, rfl, (h ds []).mpr ⟨rfl, hl⟩,
              ih.mpr ⟨rfl, parts, Nat.succ.inj hlength, rfl, hparts⟩⟩

theorem describes_one (p : Char → Bool) : (one p).Describes (One p) :=
  fun _ _ => and_comm

theorem describes_char (c : Char) : (char c).Describes (· = [c]) := by
  intro cs groups
  rw [char, describes_one, One]
  simp

theorem matches_optional (p : Pattern) :
    p.optional.Matches cs groups ↔ (cs = [] ∧ groups = []) ∨ p.Matches cs groups := by
  constructor
  · rintro ⟨n, -, hmost, hn⟩
    match n, hmost 1 rfl with
    | 0, _ => exact .inl hn
    | 1, _ =>
        obtain ⟨ds, es, xs, ys, rfl, rfl, hds, rfl, rfl⟩ := hn
        rw [List.append_nil, List.append_nil]
        exact .inr hds
  · rintro (hnone | hone)
    · exact ⟨0, Nat.le_refl 0, fun _ _ => Nat.zero_le _, hnone⟩
    · refine ⟨1, Nat.zero_le 1, ?_, cs, [], groups, [], ?_, ?_, hone, rfl, rfl⟩
      · rintro k ⟨⟩
        exact Nat.le_refl 1
      · exact (List.append_nil cs).symm
      · exact (List.append_nil groups).symm

namespace Describes

theorem congr (h : p.Describes l) (hl : ∀ cs, l cs ↔ m cs) : p.Describes m :=
  fun cs groups => (h cs groups).trans (and_congr_right fun _ => hl cs)

theorem append (hp : p.Describes l) (hq : q.Describes m) :
    (p ++ q).Describes fun cs => ∃ ds es, cs = ds ++ es ∧ l ds ∧ m es := by
  intro cs groups
  constructor
  · rintro ⟨ds, es, xs, ys, rfl, rfl, hds, hes⟩
    obtain ⟨rfl, hl⟩ := (hp ds xs).mp hds
    obtain ⟨rfl, hm⟩ := (hq es ys).mp hes
    exact ⟨rfl, ds, es, rfl, hl, hm⟩
  · rintro ⟨rfl, ds, es, rfl, hds, hes⟩
    exact ⟨ds, es, [], [], rfl, rfl, (hp ds []).mpr ⟨rfl, hds⟩, (hq es []).mpr ⟨rfl, hes⟩⟩

theorem or (hp : p.Describes l) (hq : q.Describes m) :
    (p ||| q).Describes fun cs => l cs ∨ m cs := by
  intro cs groups
  refine (or_congr (hp cs groups) (hq cs groups)).trans ?_
  rw [and_or_left]

theorem times (h : p.Describes l) (least : Nat) (most : Option Nat) :
    (p.times least most).Describes fun cs => ∃ parts : List (List Char),
      (least ≤ parts.length ∧ ∀ k, most = some k → parts.length ≤ k) ∧ cs = parts.flatten ∧
        ∀ x ∈ parts, l x := by
  intro cs groups
  constructor
  · rintro ⟨n, hleast, hmost, hn⟩
    obtain ⟨rfl, parts, rfl, hcs, hparts⟩ := (repeated_iff h).mp hn
    exact ⟨rfl, parts, ⟨hleast, hmost⟩, hcs, hparts⟩
  · rintro ⟨rfl, parts, ⟨hleast, hmost⟩, hcs, hparts⟩
    exact ⟨parts.length, hleast, hmost, (repeated_iff h).mpr ⟨rfl, parts, rfl, hcs, hparts⟩⟩

theorem optional (h : p.Describes l) : p.optional.Describes fun cs => cs = [] ∨ l cs := by
  intro cs groups
  rw [matches_optional, h cs groups, and_or_left, and_comm]

/-- Items with separators between them, as such a list is written in a pattern. -/
theorem separated (hitem : p.Describes item) (hsep : q.Describes sep) :
    (p ++ (q ++ p).many).Describes (Separated item sep) := by
  refine (hitem.append ((hsep.append hitem).times 0 none)).congr fun cs => ⟨?_, ?_⟩
  · rintro ⟨ds, es, rfl, hds, parts, -, rfl, hparts⟩
    induction parts generalizing ds with
    | nil =>
        rw [List.flatten_nil, List.append_nil]
        exact .last hds
    | cons x parts ih =>
        obtain ⟨⟨ys, zs, rfl, hys, hzs⟩, hrest⟩ := List.forall_mem_cons.mp hparts
        rw [List.flatten_cons, List.append_assoc]
        exact .more hds hys (ih zs hzs hrest)
  · intro h
    induction h with
    | @last xs h =>
        exact ⟨xs, [], (List.append_nil xs).symm, h, [], ⟨Nat.zero_le _, nofun⟩, rfl,
          List.forall_mem_nil _⟩
    | @more xs ys _ h hs _ ih =>
        obtain ⟨zs, es, rfl, hzs, parts, -, rfl, hparts⟩ := ih
        refine ⟨xs, (ys ++ zs) ++ parts.flatten, by rw [List.append_assoc], h, (ys ++ zs) :: parts,
          ⟨Nat.zero_le _, nofun⟩, rfl, ?_⟩
        exact List.forall_mem_cons.mpr ⟨⟨ys, zs, rfl, hs, hzs⟩, hparts⟩

end Describes

theorem flatten_of_one {p : Char → Bool} {parts : List (List Char)} (h : ∀ x ∈ parts, One p x) :
    (∀ c ∈ parts.flatten, p c = true) ∧ parts.flatten.length = parts.length := by
  induction parts with
  | nil => exact ⟨List.forall_mem_nil _, rfl⟩
  | cons x parts ih =>
      obtain ⟨⟨c, hc, rfl⟩, hparts⟩ := List.forall_mem_cons.mp h
      obtain ⟨hall, hlength⟩ := ih hparts
      exact ⟨List.forall_mem_cons.mpr ⟨hc, hall⟩, congrArg (· + 1) hlength⟩

/-- Characters of a class, as many as are allowed. -/
theorem describes_times_one (p : Char → Bool) (least : Nat) (most : Option Nat) :
    ((one p).times least most).Describes fun cs =>
      (∀ c ∈ cs, p c = true) ∧ least ≤ cs.length ∧ ∀ k, most = some k → cs.length ≤ k := by
  refine ((describes_one p).times least most).congr fun cs => ⟨?_, ?_⟩
  · rintro ⟨parts, hlength, rfl, hparts⟩
    obtain ⟨hall, heq⟩ := flatten_of_one hparts
    rw [heq]
    exact ⟨hall, hlength⟩
  · rintro ⟨hall, hlength⟩
    refine ⟨cs.map ([·]), ?_, ?_, ?_⟩
    · rwa [List.length_map]
    · rw [← List.flatMap_def, List.flatMap_singleton']
    · exact List.forall_mem_map.mpr fun c hc => ⟨c, hall c hc, rfl⟩

theorem describes_many_one (p : Char → Bool) :
    (one p).many.Describes fun cs => ∀ c ∈ cs, p c = true :=
  (describes_times_one p 0 none).congr fun _ => and_iff_left ⟨Nat.zero_le _, fun _ h => nomatch h⟩

theorem describes_many1_one (p : Char → Bool) : (one p).many1.Describes (Run p) := by
  refine (describes_times_one p 1 none).congr fun cs => ?_
  simp [Run, Nat.one_le_iff_ne_zero, and_comm]

/-! ## Parts of references -/

theorem describes_label : label.Describes Label := by
  refine ((describes_one _).or (((describes_one _).append (describes_many_one _)).append
    (describes_one _))).congr fun cs => ⟨?_, ?_⟩
  · rintro (⟨c, hc, rfl⟩ | ⟨_, _, rfl, ⟨_, inner, rfl, ⟨c, hc, rfl⟩, hinner⟩, d, hd, rfl⟩)
    · exact .single hc
    · exact .longer hc (fun e he => by simpa using hinner e he) hd
  · intro h
    cases h with
    | single hc => exact .inl ⟨_, hc, rfl⟩
    | @longer c d inner hc hinner hd =>
        refine .inr ⟨c :: inner, [d], rfl, ⟨[c], inner, rfl, ⟨c, hc, rfl⟩, fun e he => ?_⟩,
          d, hd, rfl⟩
        simpa using hinner e he

theorem describes_hostName : hostName.Describes HostName :=
  describes_label.separated (describes_one _)

theorem describes_separator : separator.Describes Separator := by
  refine (((describes_one _).or ((describes_char '_').append (describes_char '_'))).or
    (describes_many1_one _)).congr fun cs => ⟨?_, ?_⟩
  · rintro ((⟨c, hc, rfl⟩ | ⟨_, _, rfl, rfl, rfl⟩) | h)
    · rcases Bool.or_eq_true_iff.mp hc with hc | hc
      · obtain rfl := eq_of_beq hc
        exact .point
      · obtain rfl := eq_of_beq hc
        exact .underscore
    · exact .underscores
    · exact .hyphens h
  · intro h
    cases h with
    | point => exact .inl (.inl ⟨'.', rfl, rfl⟩)
    | underscore => exact .inl (.inl ⟨'_', rfl, rfl⟩)
    | underscores => exact .inl (.inr ⟨['_'], ['_'], rfl, rfl, rfl⟩)
    | hyphens h => exact .inr h

theorem describes_component : component.Describes Component :=
  (describes_many1_one _).separated describes_separator

theorem describes_path : path.Describes Path :=
  describes_component.separated (describes_one _)

theorem describes_name : name.Describes Name := by
  refine (((((describes_hostName.append ((describes_char ':').append
    (describes_many1_one _)).optional)).append (describes_char '/')).optional).append
      describes_path).congr fun cs => ⟨?_, ?_⟩
  · rintro ⟨_, cs, rfl, rfl | ⟨_, _, rfl, ⟨host, _, rfl, hhost, hport⟩, rfl⟩, hpath⟩
    · exact .plain hpath
    · rw [List.append_assoc]
      refine .hosted ?_ hpath
      rcases hport with rfl | ⟨_, port, rfl, rfl, hport⟩
      · rw [List.append_nil]
        exact .plain hhost
      · exact .ported hhost hport
  · intro h
    cases h with
    | plain h => exact ⟨[], cs, rfl, .inl rfl, h⟩
    | @hosted host cs hhost h =>
        refine ⟨host ++ ['/'], cs, List.append_cons host '/' cs, .inr ⟨host, ['/'], rfl, ?_, rfl⟩,
          h⟩
        cases hhost with
        | plain hhost => exact ⟨host, [], (List.append_nil host).symm, hhost, .inl rfl⟩
        | @ported hostName port hhost hport =>
            exact ⟨hostName, ':' :: port, rfl, hhost, .inr ⟨[':'], port, rfl, rfl, hport⟩⟩

theorem describes_tag : tag.Describes Tag := by
  refine ((describes_one _).append (describes_times_one _ 0 (some 127))).congr fun cs => ⟨?_, ?_⟩
  · rintro ⟨_, cs, rfl, ⟨c, hc, rfl⟩, hcs, -, hlength⟩
    refine ⟨List.forall_mem_cons.mpr ⟨?_, hcs⟩, ?_, Nat.succ_pos _,
      Nat.succ_le_succ (hlength 127 rfl)⟩
    · simp only [isTagChar, Bool.or_eq_true, decide_eq_true_eq]
      exact .inl (.inl (by simpa using hc))
    · rintro _ ⟨⟩
      constructor <;>
        · rintro rfl
          revert hc
          decide
  · rintro ⟨hcs, hopening, hpos, hlength⟩
    cases cs with
    | nil => cases hpos
    | cons c cs =>
        obtain ⟨hc, hcs⟩ := List.forall_mem_cons.mp hcs
        refine ⟨[c], cs, rfl, ⟨c, ?_, rfl⟩, hcs, Nat.zero_le _, ?_⟩
        · obtain ⟨hpoint, hhyphen⟩ := hopening c rfl
          simpa [isTagChar, hpoint, hhyphen] using hc
        · rintro k ⟨⟩
          exact Nat.le_of_succ_le_succ hlength

theorem describes_algorithmWord : algorithmWord.Describes AlgorithmWord := by
  refine ((describes_one _).append (describes_many_one _)).congr fun cs => ⟨?_, ?_⟩
  · rintro ⟨_, cs, rfl, ⟨c, hc, rfl⟩, hcs⟩
    exact .mk hc hcs
  · rintro ⟨hc, hcs⟩
    exact ⟨[_], _, rfl, ⟨_, hc, rfl⟩, hcs⟩

theorem describes_digest : digest.Describes Digest := by
  refine (((describes_algorithmWord.separated (describes_one _)).append
    (describes_char ':')).append (describes_times_one _ 32 none)).congr fun cs => ⟨?_, ?_⟩
  · rintro ⟨_, hex, rfl, ⟨algorithm, _, rfl, halgorithm, rfl⟩, hhex, hlength, -⟩
    rw [List.append_assoc]
    exact .mk halgorithm hhex hlength
  · rintro ⟨halgorithm, hhex, hlength⟩
    exact ⟨_ ++ [':'], _, List.append_cons _ ':' _, ⟨_, [':'], rfl, halgorithm, rfl⟩, hhex,
      hlength, fun _ h => nomatch h⟩

/-! ## Groups -/

theorem Describes.matches_group (h : p.Describes l) (name : String) :
    (p.group name).Matches cs groups ↔ groups = [(name, cs)] ∧ l cs := by
  constructor
  · rintro ⟨inner, hinner, rfl⟩
    obtain ⟨rfl, hl⟩ := (h cs inner).mp hinner
    exact ⟨rfl, hl⟩
  · rintro ⟨rfl, hl⟩
    exact ⟨[], (h cs []).mpr ⟨rfl, hl⟩, rfl⟩

/-- A part that follows a character, or is left out with it. -/
theorem Describes.matches_optional_group (h : p.Describes l) (c : Char) (name : String) :
    (char c ++ p.group name).optional.Matches cs groups ↔
      ∃ part : Option (List Char), cs = part.elim [] (c :: ·) ∧
        groups = part.toList.map (name, ·) ∧ ∀ x, part = some x → l x := by
  rw [matches_optional]
  constructor
  · rintro (⟨rfl, rfl⟩ | ⟨_, x, _, _, rfl, rfl, hc, hx⟩)
    · exact ⟨none, rfl, rfl, fun _ h => nomatch h⟩
    · obtain ⟨rfl, rfl⟩ := (describes_char c _ _).mp hc
      obtain ⟨rfl, hl⟩ := (h.matches_group name).mp hx
      refine ⟨some x, rfl, rfl, ?_⟩
      rintro _ ⟨⟩
      exact hl
  · rintro ⟨_ | x, rfl, rfl, hx⟩
    · exact .inl ⟨rfl, rfl⟩
    · exact .inr ⟨[c], x, [], _, rfl, rfl, (describes_char c _ _).mpr ⟨rfl, rfl⟩,
        (h.matches_group name).mpr ⟨rfl, hx x rfl⟩⟩

end Pattern

/-- The parts of a reference under the names of their groups. -/
def captures (r : Reference) : Captures :=
  ("name", r.name) :: (r.tag.toList.map ("tag", ·) ++ r.digest.toList.map ("digest", ·))

/-- The pattern matches the renderings of the references that the grammar allows, and its groups
match their parts. -/
theorem matches_reference {cs : List Char} {groups : Captures} :
    Pattern.reference.Matches cs groups ↔
      ∃ r : Reference, r.Grammatical ∧ cs = r.render ∧ groups = r.captures := by
  constructor
  · rintro ⟨_, _, _, _, rfl, rfl, ⟨name, _, _, _, rfl, rfl, hname, htag⟩, hdigest⟩
    obtain ⟨rfl, hname'⟩ := (Pattern.describes_name.matches_group "name").mp hname
    obtain ⟨tag, rfl, rfl, htag'⟩ :=
      (Pattern.describes_tag.matches_optional_group ':' "tag").mp htag
    obtain ⟨digest, rfl, rfl, hdigest'⟩ :=
      (Pattern.describes_digest.matches_optional_group '@' "digest").mp hdigest
    exact ⟨⟨name, tag, digest⟩, ⟨hname', htag', hdigest'⟩, rfl, rfl⟩
  · rintro ⟨⟨name, tag, digest⟩, ⟨hname, htag, hdigest⟩, rfl, rfl⟩
    exact ⟨_, _, _ :: _, _, rfl, rfl,
      ⟨_, _, _, _, rfl, rfl, (Pattern.describes_name.matches_group "name").mpr ⟨rfl, hname⟩,
        (Pattern.describes_tag.matches_optional_group ':' "tag").mpr ⟨tag, rfl, rfl, htag⟩⟩,
      (Pattern.describes_digest.matches_optional_group '@' "digest").mpr
        ⟨digest, rfl, rfl, hdigest⟩⟩

end Converge.Reference
