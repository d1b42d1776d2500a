import Converge.Reference

/-!
# The grammar of references

Which texts the parts of a reference may be, said without regard to how they are recognized.
-/

namespace Converge.Reference

/-! ## Texts made of smaller ones -/

/-- One character of a class. -/
def One (p : Char → Bool) (cs : List Char) : Prop := ∃ c, p c = true ∧ cs = [c]

/-- One or more characters of a class. -/
def Run (p : Char → Bool) (cs : List Char) : Prop := cs ≠ [] ∧ ∀ c ∈ cs, p c = true

/-- One or more items with a separator between each two. -/
inductive Separated (item sep : List Char → Prop) : List Char → Prop
  | last {xs} (h : item xs) : Separated item sep xs
  | more {xs ys zs} (h : item xs) (hsep : sep ys) (hrest : Separated item sep zs) :
      Separated item sep (xs ++ (ys ++ zs))

theorem Separated.cons {item : List Char → Prop} {p : Char → Bool} {xs ys : List Char} {c : Char}
    (h : item xs) (hc : p c = true) (hrest : Separated item (One p) ys) :
    Separated item (One p) (xs ++ c :: ys) :=
  .more h ⟨c, hc, rfl⟩ hrest

/-! ## Names -/

/-- What separates the words of a component. -/
inductive Separator : List Char → Prop
  | point : Separator ['.']
  | underscore : Separator ['_']
  | underscores : Separator ['_', '_']
  | hyphens {cs} (h : Run (· == '-') cs) : Separator cs

def Component : List Char → Prop := Separated (Run isWordChar) Separator

def Path : List Char → Prop := Separated Component (One (· == '/'))

/-- Letters and digits, with hyphens among them but at neither end. -/
inductive Label : List Char → Prop
  | single {c} (h : isAlphanumeric c = true) : Label [c]
  | longer {c d inner} (hc : isAlphanumeric c = true)
      (hinner : ∀ e ∈ inner, isAlphanumeric e = true ∨ e = '-') (hd : isAlphanumeric d = true) :
      Label (c :: (inner ++ [d]))

def HostName : List Char → Prop := Separated Label (One (· == '.'))

inductive Host : List Char → Prop
  | plain {cs} (h : HostName cs) : Host cs
  | ported {cs port} (h : HostName cs) (hport : Run isDigit port) : Host (cs ++ ':' :: port)

inductive Name : List Char → Prop
  | plain {cs} (h : Path cs) : Name cs
  | hosted {host cs} (hhost : Host host) (h : Path cs) : Name (host ++ '/' :: cs)

/-! ## Tags and digests -/

structure Tag (cs : List Char) : Prop where
  chars : ∀ c ∈ cs, isTagChar c = true
  opening : ∀ c, cs.head? = some c → c ≠ '.' ∧ c ≠ '-'
  length : 1 ≤ cs.length ∧ cs.length ≤ 128

/-- A letter, and then letters and digits. -/
inductive AlgorithmWord : List Char → Prop
  | mk {c cs} (hc : isLetter c = true) (hcs : ∀ d ∈ cs, isAlphanumeric d = true) :
      AlgorithmWord (c :: cs)

def isAlgorithmSeparator (c : Char) : Bool := c = '-' || c = '_' || c = '+' || c = '.'

def Algorithm : List Char → Prop := Separated AlgorithmWord (One isAlgorithmSeparator)

inductive Digest : List Char → Prop
  | mk {algorithm hex} (h : Algorithm algorithm) (hhex : ∀ c ∈ hex, isHexadecimal c = true)
      (hlength : 32 ≤ hex.length) : Digest (algorithm ++ ':' :: hex)

/-! ## References -/

/-- Each part is what it may be. -/
structure Grammatical (r : Reference) : Prop where
  name : Name r.name
  tag : ∀ t, r.tag = some t → Tag t
  digest : ∀ d, r.digest = some d → Digest d

/-- What can be pushed to has a tag or a digest, and a name of at most 255 bytes. -/
structure Pushable (r : Reference) : Prop extends r.Grammatical where
  versioned : r.tag.isSome = true ∨ r.digest.isSome = true
  short : (String.ofList r.name).utf8ByteSize ≤ 255

/-! ## The characters of a part

What follows a part is told from it by a character that the part cannot have.
-/

/-- The text has letters, digits and these characters, and no others. -/
def Spelled (extra cs : List Char) : Prop := ∀ c ∈ cs, isAlphanumeric c = true ∨ c ∈ extra

section

variable {extra more cs ds : List Char} {p : Char → Bool} {item sep : List Char → Prop}

theorem Spelled.nil : Spelled extra [] :=
  List.forall_mem_nil _

theorem Spelled.mono (h : Spelled extra cs) (hmore : extra ⊆ more) : Spelled more cs :=
  fun c hc => (h c hc).imp_right (@hmore c)

theorem Spelled.append (hcs : Spelled extra cs) (hds : Spelled extra ds) :
    Spelled extra (cs ++ ds) :=
  List.forall_mem_append.mpr ⟨hcs, hds⟩

theorem Spelled.cons {c : Char} (hc : isAlphanumeric c = true ∨ c ∈ extra)
    (hcs : Spelled extra cs) : Spelled extra (c :: cs) :=
  List.forall_mem_cons.mpr ⟨hc, hcs⟩

theorem Spelled.not_mem {c : Char} (h : Spelled extra cs) (hc : isAlphanumeric c = false)
    (hextra : c ∉ extra) : c ∉ cs := by
  intro hmem
  rcases h c hmem with hc' | hc'
  · cases hc.symm.trans hc'
  · exact hextra hc'

theorem Run.spelled (hp : ∀ c, p c = true → isAlphanumeric c = true ∨ c ∈ extra) (h : Run p cs) :
    Spelled extra cs :=
  fun c hc => hp c (h.2 c hc)

theorem One.spelled (hp : ∀ c, p c = true → isAlphanumeric c = true ∨ c ∈ extra) (h : One p cs) :
    Spelled extra cs := by
  obtain ⟨c, hc, rfl⟩ := h
  exact .cons (hp c hc) .nil

theorem Separated.spelled (hitem : ∀ xs, item xs → Spelled extra xs)
    (hsep : ∀ xs, sep xs → Spelled extra xs) (h : Separated item sep cs) : Spelled extra cs := by
  induction h with
  | last h => exact hitem _ h
  | more h hs _ ih => exact (hitem _ h).append ((hsep _ hs).append ih)

end

theorem isAlphanumeric_of_isDigit {c : Char} (h : isDigit c = true) : isAlphanumeric c = true := by
  simp [isAlphanumeric, h]

theorem isAlphanumeric_of_isWordChar {c : Char} (h : isWordChar c = true) :
    isAlphanumeric c = true := by
  rcases Bool.or_eq_true_iff.mp h with h | h
  · simp [isAlphanumeric, isLetter, h]
  · exact isAlphanumeric_of_isDigit h

theorem isAlphanumeric_of_isLetter {c : Char} (h : isLetter c = true) :
    isAlphanumeric c = true := by
  simp [isAlphanumeric, h]

theorem isAlphanumeric_of_isHexadecimal {c : Char} (h : isHexadecimal c = true) :
    isAlphanumeric c = true := by
  simp only [isHexadecimal, Bool.or_eq_true, Bool.and_eq_true, decide_eq_true_eq] at h
  rcases h with (h | ⟨ha, hf⟩) | ⟨ha, hf⟩
  · exact isAlphanumeric_of_isDigit h
  · have hz : c ≤ 'z' := Char.le_trans hf (by decide)
    exact isAlphanumeric_of_isLetter (by simp [isLetter, isLower, ha, hz])
  · have hz : c ≤ 'Z' := Char.le_trans hf (by decide)
    exact isAlphanumeric_of_isLetter (by simp [isLetter, isUpper, ha, hz])

variable {cs : List Char}

theorem Separator.spelled (h : Separator cs) : Spelled ['.', '_', '-'] cs := by
  cases h with
  | point | underscore => exact .cons (by decide) .nil
  | underscores => exact .cons (by decide) (.cons (by decide) .nil)
  | hyphens h => exact h.spelled fun c hc => .inr (by simp [eq_of_beq hc])

theorem Component.spelled (h : Component cs) : Spelled ['.', '_', '-'] cs :=
  Separated.spelled (fun _ h => h.spelled fun _ hc => .inl (isAlphanumeric_of_isWordChar hc))
    (fun _ h => h.spelled) h

theorem Path.spelled (h : Path cs) : Spelled ['.', '_', '-', '/'] cs :=
  Separated.spelled (fun _ h => (Component.spelled h).mono (by decide))
    (fun _ h => h.spelled fun c hc => .inr (by simp [eq_of_beq hc])) h

theorem Label.spelled (h : Label cs) : Spelled ['-'] cs := by
  cases h with
  | single hc => exact .cons (.inl hc) .nil
  | longer hc hinner hd =>
      refine .cons (.inl hc) (.append (fun e he => ?_) (.cons (.inl hd) .nil))
      exact (hinner e he).imp_right (by rintro rfl; decide)

theorem HostName.spelled (h : HostName cs) : Spelled ['.', '-'] cs :=
  Separated.spelled (fun _ h => (Label.spelled h).mono (by decide))
    (fun _ h => h.spelled fun c hc => .inr (by simp [eq_of_beq hc])) h

theorem Host.spelled (h : Host cs) : Spelled ['.', '-', ':'] cs := by
  cases h with
  | plain h => exact (HostName.spelled h).mono (by decide)
  | ported h hport =>
      exact ((HostName.spelled h).mono (by decide)).append
        (.cons (by decide) (hport.spelled fun _ hc => .inl (isAlphanumeric_of_isDigit hc)))

theorem Name.spelled (h : Name cs) : Spelled ['.', '_', '-', ':', '/'] cs := by
  cases h with
  | plain h => exact (Path.spelled h).mono (by decide)
  | hosted hhost h =>
      exact (hhost.spelled.mono (by decide)).append
        (.cons (by decide) ((Path.spelled h).mono (by decide)))

theorem Tag.spelled (h : Tag cs) : Spelled ['_', '.', '-'] cs := by
  intro c hc
  have hchar := h.chars c hc
  simpa [isTagChar, or_assoc] using hchar

theorem AlgorithmWord.spelled (h : AlgorithmWord cs) : Spelled [] cs := by
  cases h with
  | mk hc hcs => exact .cons (.inl (isAlphanumeric_of_isLetter hc)) fun d hd => .inl (hcs d hd)

theorem Algorithm.spelled (h : Algorithm cs) : Spelled ['-', '_', '+', '.'] cs :=
  Separated.spelled (fun _ h => (AlgorithmWord.spelled h).mono (by decide))
    (fun _ h => h.spelled fun c hc => .inr
      (by simpa [isAlgorithmSeparator, or_assoc] using hc)) h

theorem Digest.spelled (h : Digest cs) : Spelled ['-', '_', '+', '.', ':'] cs := by
  cases h with
  | mk h hhex =>
      exact ((Algorithm.spelled h).mono (by decide)).append
        (.cons (by decide) fun c hc => .inl (isAlphanumeric_of_isHexadecimal (hhex c hc)))

end Converge.Reference
