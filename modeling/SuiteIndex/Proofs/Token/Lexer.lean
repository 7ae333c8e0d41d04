import Mathlib.Data.List.Chain
import SuiteIndex.Proofs.Suite.Tiling

/-! # Lexers and the single pass

The scan of a cell cuts out the leftmost references, leaves every other sigil alone, and takes
the text between them as a whole. A lexer that always takes the longest token gives the same
tokens, although it may run into a sigil that opens no reference and fail there: then the sigil
becomes a token, and the lexer starts anew right behind it.
-/

namespace SuiteIndex.Token

/-- The texts that a token of some kind can have. -/
inductive Matches : Kind → Text → Prop where
  | reference {t : Text} (h : Reference t) : Matches .reference t
  | plain {t : Text} (hne : t ≠ []) (hplain : ∀ c ∈ t, isSigil c = false) : Matches .plain t
  | sigil {c : Char} (hsigil : isSigil c = true) : Matches .sigil [c]

theorem Matches.kind_eq {kind other : Kind} {t : Text} (h : Matches kind t)
    (hother : Matches other t) : kind = other := by
  cases h with
  | reference h =>
    obtain @⟨sigil, name, hsigil, -, -⟩ := h
    cases hother with
    | reference => rfl
    | plain _ hplain => simp [hsigil] at hplain
  | plain _ hplain =>
    cases hother with
    | reference h =>
      obtain @⟨sigil, name, hsigil, -, -⟩ := h
      simp [hsigil] at hplain
    | plain => rfl
    | sigil hsigil => simp [hsigil] at hplain
  | sigil hsigil =>
    cases hother with
    | reference h => cases h
    | plain _ hplain => simp [hsigil] at hplain
    | sigil => rfl

theorem lead_of_reference {c : Char} {t reference : Text} (h : Reference reference)
    (hbegins : reference <+: c :: t) : lead c t = (.reference, reference) := by
  obtain @⟨sigil, name, hsigil, hne, hname⟩ := h
  obtain ⟨behind, hbehind⟩ := hbegins
  obtain ⟨rfl, rfl⟩ : sigil = c ∧ '\x7b' :: name ++ '\x7d' :: behind = t := by simpa using hbehind
  rw [lead, if_pos hsigil, bracedName?_append hne hname]

theorem lead_of_not_reference {c : Char} {t : Text} (hc : isSigil c = true)
    (h : ∀ reference, Reference reference → ¬ reference <+: c :: t) : lead c t = (.sigil, [c]) := by
  rw [lead, if_pos hc]
  cases hname : bracedName? t with
  | none => rfl
  | some name =>
    obtain ⟨hne, hclosed⟩ := of_bracedName? hname
    obtain ⟨behind, rfl⟩ := eq_of_bracedName? hname
    exact absurd ⟨behind, by simp⟩ (h _ (.intro hc hne hclosed))

theorem Reference.eq_of_prefix {left right t : Text} (hleft : Reference left)
    (hright : Reference right) (hl : left <+: t) (hr : right <+: t) : left = right := by
  cases t with
  | nil =>
    rw [List.prefix_nil.1 hl, List.prefix_nil.1 hr]
  | cons c t =>
    have hsame := (lead_of_reference hleft hl).symm.trans (lead_of_reference hright hr)
    exact congrArg Prod.snd hsame

theorem Reference.eq_of_append_eq {left right s t : Text} (hleft : Reference left)
    (hright : Reference right) (h : left ++ s = right ++ t) : left = right ∧ s = t := by
  obtain rfl := hleft.eq_of_prefix hright (List.prefix_append left s)
    (h ▸ List.prefix_append right t)
  exact ⟨rfl, List.append_cancel_left h⟩

theorem lead_of_not_isSigil {c : Char} {t : Text} (hc : isSigil c = false) :
    lead c t = (.plain, c :: t.takeWhile (!isSigil ·)) := by
  simp [lead, hc]

/-- The first token of a text: a reference, a sigil that opens none, or text up to the next
sigil. -/
theorem lead_cases (c : Char) (t : Text) :
    (∃ reference, Reference reference ∧ reference <+: c :: t ∧
      lead c t = (.reference, reference)) ∨
    (isSigil c = true ∧ (∀ reference, Reference reference → ¬ reference <+: c :: t) ∧
      lead c t = (.sigil, [c])) ∨
    (isSigil c = false ∧ lead c t = (.plain, c :: t.takeWhile (!isSigil ·))) := by
  cases hc : isSigil c with
  | false => exact .inr (.inr ⟨rfl, lead_of_not_isSigil hc⟩)
  | true =>
    by_cases h : ∃ reference, Reference reference ∧ reference <+: c :: t
    · obtain ⟨reference, hreference, hbegins⟩ := h
      exact .inl ⟨reference, hreference, hbegins, lead_of_reference hreference hbegins⟩
    · have hnone : ∀ reference, Reference reference → ¬ reference <+: c :: t :=
        fun reference hreference hbegins => h ⟨reference, hreference, hbegins⟩
      exact .inr (.inl ⟨rfl, hnone, lead_of_not_reference hc hnone⟩)

theorem matches_lead (c : Char) (t : Text) : Matches (lead c t).1 (lead c t).2 := by
  obtain ⟨reference, hreference, -, hlead⟩ | ⟨hc, -, hlead⟩ | ⟨hc, hlead⟩ := lead_cases c t
  · rw [hlead]
    exact .reference hreference
  · rw [hlead]
    exact .sigil hc
  · rw [hlead]
    refine .plain (List.cons_ne_nil _ _) (List.forall_mem_cons.2 ⟨hc, fun d hd => ?_⟩)
    simpa using List.mem_takeWhile_imp hd

theorem lead_begins (c : Char) (t : Text) : (lead c t).2 <+: c :: t := by
  obtain ⟨more, hmore, ht⟩ := exists_lead c t
  rw [hmore]
  exact ⟨t.drop more.length, by rw [List.cons_append, ← ht]⟩

theorem Matches.length_le_lead {kind : Kind} {word : Text} (h : Matches kind word) {c : Char}
    {t : Text} (hbegins : word <+: c :: t) : word.length ≤ (lead c t).2.length := by
  cases h with
  | reference h => rw [lead_of_reference h hbegins]
  | plain hne hplain =>
    obtain ⟨d, word, rfl⟩ := List.exists_cons_of_ne_nil hne
    obtain ⟨rfl, behind, rfl⟩ := List.cons_prefix_cons.1 hbegins
    rw [List.forall_mem_cons] at hplain
    have hword : ∀ e ∈ word, (!isSigil e) = true := fun e he => by simp [hplain.2 e he]
    rw [lead_of_not_isSigil hplain.1, List.takeWhile_append_of_pos hword]
    simp
  | sigil =>
    obtain ⟨more, hmore, -⟩ := exists_lead c t
    simp [hmore]

theorem Reference.head?_scan {reference : Text} (h : Reference reference) (rest : Text) :
    (scan (reference ++ rest)).head? = some ⟨.reference, reference, 0, reference.length⟩ := by
  have hne : reference ++ rest ≠ [] := by
    cases h
    simp
  obtain ⟨c, t, ht⟩ := List.exists_cons_of_ne_nil hne
  have hlead : lead c t = (.reference, reference) :=
    lead_of_reference h (ht ▸ List.prefix_append reference rest)
  rw [ht, scan, scanFrom, hlead]
  simp

theorem isReference_of_parts? {token : Token} {parts : Char × Text}
    (h : token.parts? = some parts) : token.isReference = true := by
  unfold parts? at h
  split at h
  · rename_i hkind _
    simp [isReference, hkind]
  · cases h

theorem mem_scanFrom_matches {offset : Nat} {t : Text} {token : Token}
    (h : token ∈ scanFrom offset t) : Matches token.kind token.text := by
  obtain ⟨c, rest, hlead⟩ := exists_lead_of_mem h
  have hmatches := matches_lead c rest
  rwa [hlead] at hmatches

/-- The tokens lie side by side, from the first character of the text to its last. -/
structure Covers (t : Text) (tokens : List Token) : Prop where
  joined : tokens.flatMap Token.text = t
  width : ∀ token ∈ tokens, token.stop = token.start + token.text.length
  first : ∀ token ∈ tokens.head?, token.start = 0
  next : tokens.IsChain fun token behind => behind.start = token.stop
  last : ∀ token ∈ tokens.getLast?, token.stop = t.length

namespace Spells

variable {offset : Nat} {t : Text} {tokens : List Token}

theorem joined (h : Spells offset t tokens) : tokens.flatMap Token.text = t := by
  induction h with
  | nil => rfl
  | cons _ _ ih => rw [List.flatMap_cons, ih]

theorem width (h : Spells offset t tokens) :
    ∀ token ∈ tokens, token.stop = token.start + token.text.length := by
  induction h with
  | nil => simp
  | cons _ _ ih => exact List.forall_mem_cons.2 ⟨rfl, ih⟩

theorem start_of_mem_head? (h : Spells offset t tokens) :
    ∀ token ∈ tokens.head?, token.start = offset :=
  fun _ htoken => (h.head htoken).1

theorem isChain (h : Spells offset t tokens) :
    tokens.IsChain fun token behind => behind.start = token.stop := by
  induction h with
  | nil => exact .nil
  | cons _ hrest ih => exact ih.cons hrest.start_of_mem_head?

theorem stop_of_mem_getLast? (h : Spells offset t tokens) :
    ∀ token ∈ tokens.getLast?, token.stop = offset + t.length := by
  induction h with
  | nil => simp
  | @cons offset kind piece rest tokens _ hrest ih =>
    intro token htoken
    cases tokens with
    | nil =>
      obtain rfl := Option.some.inj htoken
      cases hrest
      simp
    | cons other tokens =>
      rw [List.getLast?_cons_cons] at htoken
      rw [ih token htoken, List.length_append, Nat.add_assoc]

theorem covers (h : Spells 0 t tokens) : Covers t tokens where
  joined := h.joined
  width := h.width
  first := h.start_of_mem_head?
  next := h.isChain
  last token htoken := by rw [h.stop_of_mem_getLast? token htoken, Nat.zero_add]

end Spells

theorem isChain_scanFrom (offset : Nat) (t : Text) : (scanFrom offset t).IsChain
    fun token behind => ¬ (token.kind = .plain ∧ behind.kind = .plain) := by
  fun_induction scanFrom offset t with
  | case1 => exact .nil
  | case2 offset c t kind text hlead ih =>
    refine ih.cons fun behind hbehind => ?_
    rintro ⟨hkind, hplain⟩
    obtain rfl : kind = .plain := hkind
    have hc : lead c t = (.plain, c :: t.takeWhile (!isSigil ·)) := by
      obtain ⟨_, -, -, hcase⟩ | ⟨-, -, hcase⟩ | ⟨-, hcase⟩ := lead_cases c t
      · cases hlead.symm.trans hcase
      · cases hlead.symm.trans hcase
      · exact hcase
    obtain rfl : text = c :: t.takeWhile (!isSigil ·) := by
      cases hlead.symm.trans hc
      rfl
    rw [List.length_cons, Nat.add_sub_cancel, Text.drop_length_takeWhile] at hbehind
    have hmatches := mem_scanFrom_matches (List.mem_of_mem_head? hbehind)
    rw [hplain] at hmatches
    obtain ⟨-, -, hsplit⟩ := (spells_scanFrom _ _).head hbehind
    cases hmatches with
    | plain hne hnone =>
      obtain ⟨d, more, hmore⟩ := List.exists_cons_of_ne_nil hne
      rw [hmore, List.forall_mem_cons] at hnone
      have hhead := List.head?_dropWhile_not (!isSigil ·) t
      rw [hsplit, hmore] at hhead
      simp [hnone.1] at hhead

/-- A reference stands in the text from one index up to another. -/
def ReferenceAt (t : Text) (first last : Nat) : Prop :=
  ∃ front reference behind, Reference reference ∧ t = front ++ reference ++ behind ∧
    first = front.length ∧ last = first + reference.length

/-- The leftmost references from an index on that do not overlap: each is the first one that
starts no earlier than the one before has ended. -/
inductive Leftmost (t : Text) : Nat → List (Nat × Nat) → Prop where
  | done {start : Nat} (h : ∀ first last, start ≤ first → ¬ ReferenceAt t first last) :
    Leftmost t start []
  | next {start first last : Nat} {rest : List (Nat × Nat)} (hstart : start ≤ first)
    (h : ReferenceAt t first last)
    (hfirst : ∀ other stop, start ≤ other → ReferenceAt t other stop → first ≤ other)
    (hrest : Leftmost t last rest) : Leftmost t start ((first, last) :: rest)

namespace ReferenceAt

variable {t : Text} {first last : Nat}

theorem exists_sigil (h : ReferenceAt t first last) : ∃ c, t[first]? = some c ∧ isSigil c = true := by
  obtain ⟨front, reference, behind, hreference, rfl, rfl, rfl⟩ := h
  obtain @⟨sigil, name, hsigil, -, -⟩ := hreference
  exact ⟨sigil, by simp, hsigil⟩

theorem exists_prefix (h : ReferenceAt t first last) :
    ∃ reference, Reference reference ∧ reference <+: t.drop first ∧
      last = first + reference.length := by
  obtain ⟨front, reference, behind, hreference, rfl, rfl, rfl⟩ := h
  refine ⟨reference, hreference, ⟨behind, ?_⟩, rfl⟩
  rw [List.append_assoc, List.drop_left]

theorem of_prefix {reference front rest : Text} (hreference : Reference reference)
    (hbegins : reference <+: rest) :
    ReferenceAt (front ++ rest) front.length (front.length + reference.length) := by
  obtain ⟨behind, rfl⟩ := hbegins
  exact ⟨front, reference, behind, hreference, (List.append_assoc _ _ _).symm, rfl, rfl⟩

theorem last_eq {other : Nat} (h : ReferenceAt t first last) (hother : ReferenceAt t first other) :
    last = other := by
  obtain ⟨reference, hreference, hbegins, rfl⟩ := h.exists_prefix
  obtain ⟨word, hword, hwords, rfl⟩ := hother.exists_prefix
  rw [hreference.eq_of_prefix hword hbegins hwords]

end ReferenceAt

namespace Leftmost

variable {t : Text} {start : Nat} {places : List (Nat × Nat)}

theorem unique {others : List (Nat × Nat)} (h : Leftmost t start places)
    (hothers : Leftmost t start others) : places = others := by
  induction h generalizing others with
  | done hnone =>
    cases hothers with
    | done => rfl
    | next hstart hplace _ _ => exact absurd hplace (hnone _ _ hstart)
  | next hstart hplace hfirst _ ih =>
    cases hothers with
    | done hnone => exact absurd hplace (hnone _ _ hstart)
    | next hlater hother hleast hrest =>
      obtain rfl := Nat.le_antisymm (hfirst _ _ hlater hother) (hleast _ _ hstart hplace)
      obtain rfl := hplace.last_eq hother
      rw [ih hrest]

theorem of_later {later : Nat} (h : Leftmost t later places) (hle : start ≤ later)
    (hnone : ∀ first last, start ≤ first → first < later → ¬ ReferenceAt t first last) :
    Leftmost t start places := by
  have hlater : ∀ first last, start ≤ first → ReferenceAt t first last → later ≤ first :=
    fun first last hstart hplace =>
      not_lt.1 fun hfirst => hnone first last hstart hfirst hplace
  cases h with
  | done hdone =>
    exact .done fun first last hstart hplace =>
      hdone first last (hlater first last hstart hplace) hplace
  | next hstart hplace hfirst hrest =>
    exact .next (hle.trans hstart) hplace
      (fun other stop hother hstop => hfirst other stop (hlater other stop hother hstop) hstop) hrest

end Leftmost

/-- Where the references among some tokens stand. -/
def referencePlaces (tokens : List Token) : List (Nat × Nat) :=
  (tokens.filter isReference).map fun token => (token.start, token.stop)

theorem leftmost_scanFrom {t front rest : Text} (ht : t = front ++ rest) :
    Leftmost t front.length (referencePlaces (scanFrom front.length rest)) := by
  generalize hoffset : front.length = offset
  fun_induction scanFrom offset rest generalizing front with
  | case1 offset =>
    refine .done fun first last hstart hplace => ?_
    obtain ⟨c, hc, -⟩ := hplace.exists_sigil
    obtain ⟨hlt, -⟩ := List.getElem?_eq_some_iff.1 hc
    rw [ht, List.append_nil] at hlt
    omega
  | case2 offset c rest kind text hlead ih =>
    subst hoffset
    have hsplit : c :: rest = text ++ rest.drop (text.length - 1) := by
      obtain ⟨more, hmore, hrest⟩ := exists_lead c rest
      rw [hlead] at hmore
      obtain rfl : text = c :: more := hmore
      rw [List.length_cons, Nat.add_sub_cancel, List.cons_append, ← hrest]
    have hlater := @ih (front ++ text) (by rw [ht, hsplit, List.append_assoc]) List.length_append
    obtain ⟨reference, hreference, hbegins, hcase⟩ | ⟨-, hnone, hcase⟩ | ⟨hc, hcase⟩ :=
      lead_cases c rest
    · cases hlead.symm.trans hcase
      have hplace := @ReferenceAt.of_prefix _ front _ hreference hbegins
      rw [← ht] at hplace
      exact .next le_rfl hplace (fun _ _ hstart _ => hstart) hlater
    · cases hlead.symm.trans hcase
      refine hlater.of_later (Nat.le_add_right _ _) fun first last hstart hfirst hplace => ?_
      obtain rfl : first = front.length := by
        rw [List.length_singleton] at hfirst
        omega
      obtain ⟨reference, hreference, hbegins, -⟩ := hplace.exists_prefix
      rw [ht, List.drop_left] at hbegins
      exact hnone reference hreference hbegins
    · cases hlead.symm.trans hcase
      refine hlater.of_later (Nat.le_add_right _ _) fun first last hstart hfirst hplace => ?_
      obtain ⟨d, hd, hsigil⟩ := hplace.exists_sigil
      have hmem : d ∈ c :: rest.takeWhile (!isSigil ·) := by
        rw [ht, hsplit, List.getElem?_append_right hstart,
          List.getElem?_append_left (by omega)] at hd
        exact List.mem_of_getElem? hd
      rcases List.mem_cons.1 hmem with rfl | hmem
      · rw [hc] at hsigil
        cases hsigil
      · have hplain := List.mem_takeWhile_imp hmem
        rw [hsigil] at hplain
        cases hplain

theorem Spells.exists_getElem? {offset : Nat} {t : Text} {tokens : List Token}
    (h : Spells offset t tokens) {i : Nat} {c : Char} (hc : t[i]? = some c) :
    ∃ token ∈ tokens, ∃ j, offset + i = token.start + j ∧ token.text[j]? = some c := by
  induction h generalizing i with
  | nil => simp at hc
  | @cons offset kind piece rest tokens _ _ ih =>
    by_cases hi : i < piece.length
    · rw [List.getElem?_append_left hi] at hc
      exact ⟨_, List.mem_cons_self, i, rfl, hc⟩
    · rw [List.getElem?_append_right (not_lt.1 hi)] at hc
      obtain ⟨token, htoken, j, hplace, hj⟩ := ih hc
      exact ⟨token, List.mem_cons_of_mem _ htoken, j, by omega, hj⟩

theorem sigil_scan {content : Text} {i : Nat} {c : Char} (hc : content[i]? = some c)
    (hsigil : isSigil c = true) :
    (∃ token ∈ scan content, token.isReference = true ∧ token.start ≤ i ∧ i < token.stop) ∨
      ⟨.sigil, [c], i, i + 1⟩ ∈ scan content := by
  have hspells := spells_scan content
  obtain ⟨⟨kind, text, start, stop⟩, htoken, j, hplace, hj⟩ := hspells.exists_getElem? hc
  obtain rfl : stop = start + text.length := hspells.width _ htoken
  obtain ⟨hlt, -⟩ := List.getElem?_eq_some_iff.1 hj
  have hmatches : Matches kind text := mem_scanFrom_matches htoken
  dsimp only at hplace hj hlt
  cases hmatches with
  | reference => exact .inl ⟨_, htoken, rfl, by dsimp only; omega, by dsimp only; omega⟩
  | plain _ hplain =>
    rw [hplain c (List.mem_of_getElem? hj)] at hsigil
    cases hsigil
  | @sigil d =>
    obtain rfl : j = 0 := by simpa using hlt
    obtain rfl : d = c := by simpa using hj
    obtain rfl : start = i := by omega
    exact .inr htoken

theorem parts?_of_matches {token : Token} (h : Matches token.kind token.text)
    (hreference : token.isReference = true) : ∃ sigil name,
      token.parts? = some (sigil, name) ∧ token.text = sigil :: '\x7b' :: name ++ ['\x7d'] := by
  obtain ⟨kind, text, start, stop⟩ := token
  obtain rfl : kind = .reference := by simpa [isReference] using hreference
  cases h with
  | reference h =>
    obtain @⟨sigil, name, -, -, -⟩ := h
    exact ⟨sigil, name, by simp [parts?], rfl⟩

/-- What a single pass of the rules for tokens makes of a text: references are found from left
to right, every sigil outside of them is a token, and the text between is not cut further. -/
structure SinglePass (content : Text) (tokens : List Token) : Prop where
  covers : Covers content tokens
  kinds : ∀ token ∈ tokens, Matches token.kind token.text
  references : ∀ places, Leftmost content 0 places ↔ places = referencePlaces tokens
  sigils : ∀ i c, content[i]? = some c → isSigil c = true →
    (∃ token ∈ tokens, token.isReference = true ∧ token.start ≤ i ∧ i < token.stop) ∨
      ⟨.sigil, [c], i, i + 1⟩ ∈ tokens
  apart : tokens.IsChain fun token behind => ¬ (token.kind = .plain ∧ behind.kind = .plain)
  parts : ∀ token ∈ tokens, token.isReference = true → ∃ sigil name,
    token.parts? = some (sigil, name) ∧ token.text = sigil :: '\x7b' :: name ++ ['\x7d']

theorem singlePass_scan (content : Text) : SinglePass content (scan content) where
  covers := (spells_scan content).covers
  kinds _ := mem_scanFrom_matches
  references places := by
    have hleftmost := leftmost_scanFrom (List.nil_append content).symm
    exact ⟨fun h => h.unique hleftmost, fun h => h ▸ hleftmost⟩
  sigils _ _ := sigil_scan
  apart := isChain_scanFrom 0 content
  parts _ htoken := parts?_of_matches (mem_scanFrom_matches htoken)

/-- What a lexer has read of a text: a token, or characters that it can make nothing of. It has
read the first character in any case, and then some more. -/
inductive Reading where
  | token (kind : Kind) (more : Nat)
  | failure (more : Nat)

/-- A lexer reads from the first character of a text into the text behind it. -/
abbrev Lexer := Char → Text → Reading

namespace Lexer

/-- The tokens from a lexer, the first of them at `offset`. Where it fails, the first character
is a token of its own, and the rest is read again. -/
def tokensFrom (lexer : Lexer) (offset : Nat) : Text → List Token
  | [] => []
  | c :: t =>
    match lexer c t with
    | .token kind more =>
      let text := c :: t.take more
      ⟨kind, text, offset, offset + text.length⟩ ::
        tokensFrom lexer (offset + text.length) (t.drop more)
    | .failure _ => ⟨.sigil, [c], offset, offset + 1⟩ :: tokensFrom lexer (offset + 1) t
termination_by t => t.length
decreasing_by
  · simp only [List.length_drop, List.length_cons]
    omega
  · simp

def tokens (lexer : Lexer) (content : Text) : List Token :=
  lexer.tokensFrom 0 content

/-- The lexer reads the longest token there is, and it may fail only at a sigil that opens no
reference. -/
structure TakesLongest (lexer : Lexer) : Prop where
  matches_token {c : Char} {t : Text} {kind : Kind} {more : Nat}
    (h : lexer c t = .token kind more) : Matches kind (c :: t.take more)
  longest {c : Char} {t : Text} {kind : Kind} {more : Nat} (h : lexer c t = .token kind more)
    {other : Kind} {word : Text} (hword : Matches other word) (hbegins : word <+: c :: t) :
    word.length ≤ (c :: t.take more).length
  failure {c : Char} {t : Text} {more : Nat} (h : lexer c t = .failure more) :
    isSigil c = true ∧ ∀ reference, Reference reference → ¬ reference <+: c :: t

namespace TakesLongest

variable {lexer : Lexer} {c : Char} {t : Text}

theorem lead_eq (h : lexer.TakesLongest) {kind : Kind} {more : Nat}
    (hread : lexer c t = .token kind more) : lead c t = (kind, c :: t.take more) := by
  have hbegins : c :: t.take more <+: c :: t := List.cons_prefix_cons.2 ⟨rfl, List.take_prefix more t⟩
  have hmatches := h.matches_token hread
  have hlength := le_antisymm (hmatches.length_le_lead hbegins)
    (h.longest hread (matches_lead c t) (lead_begins c t))
  have htext : c :: t.take more = (lead c t).2 :=
    (List.prefix_of_prefix_length_le hbegins (lead_begins c t) hlength.le).eq_of_length hlength
  exact Prod.ext ((matches_lead c t).kind_eq (htext ▸ hmatches)) htext.symm

theorem lead_of_failure (h : lexer.TakesLongest) {more : Nat}
    (hread : lexer c t = .failure more) : lead c t = (.sigil, [c]) :=
  lead_of_not_reference (h.failure hread).1 (h.failure hread).2

theorem tokensFrom_eq (h : lexer.TakesLongest) (offset : Nat) (t : Text) :
    lexer.tokensFrom offset t = scanFrom offset t := by
  fun_induction tokensFrom lexer offset t with
  | case1 offset => rw [scanFrom]
  | case2 offset c t kind more hread text ih =>
    have hdrop : t.drop (text.length - 1) = t.drop more := by
      rw [List.length_cons, Nat.add_sub_cancel, List.length_take]
      rcases le_total more t.length with hmore | hmore
      · rw [Nat.min_eq_left hmore]
      · rw [Nat.min_eq_right hmore, List.drop_length, List.drop_eq_nil_of_le hmore]
    rw [scanFrom, h.lead_eq hread, ih]
    dsimp only
    rw [hdrop]
  | case3 offset c t more hread ih =>
    rw [scanFrom, h.lead_of_failure hread, ih]
    rfl

/-- It is enough that the lexer reads the first token of the scan, or fails at a lone sigil. -/
theorem of_lead
    (htoken : ∀ c t kind more, lexer c t = .token kind more → lead c t = (kind, c :: t.take more))
    (hfailure : ∀ c t more, lexer c t = .failure more → lead c t = (.sigil, [c])) :
    lexer.TakesLongest where
  matches_token {c t kind more} h := by
    have hmatches := matches_lead c t
    rwa [htoken c t kind more h] at hmatches
  longest {c t kind more} h {other word} hword hbegins := by
    have hlength := hword.length_le_lead hbegins
    rwa [htoken c t kind more h] at hlength
  failure {c t more} h := by
    have hlead := hfailure c t more h
    refine ⟨?_, fun reference hreference hbegins => ?_⟩
    · have hmatches := matches_lead c t
      rw [hlead] at hmatches
      cases hmatches with
      | sigil hsigil => exact hsigil
    · cases hlead.symm.trans (lead_of_reference hreference hbegins)

end TakesLongest

/-- A lexer that takes the longest token, and starts anew behind each sigil where it fails, gives
the tokens of the scan, and these are what a single pass of the rules makes of the content. -/
theorem tokens_eq_single_pass {lexer : Lexer} (h : lexer.TakesLongest) (content : Text) :
    lexer.tokens content = scan content ∧ SinglePass content (scan content) :=
  ⟨h.tokensFrom_eq 0 content, singlePass_scan content⟩

/-- Reads on behind an opened brace as long as it is not closed, and fails if it never is or if
there is no name. -/
def onward : Lexer := fun c t =>
  if isSigil c then
    match bracedName? t with
    | some name => .token .reference (name.length + 2)
    | none => if t.head? = some '\x7b' then .failure (t.takeWhile (· ≠ '\x7d')).length
      else .token .sigil 0
  else .token .plain (t.takeWhile (!isSigil ·)).length

theorem takesLongest_onward : onward.TakesLongest := by
  refine .of_lead (fun c t kind more h => ?_) fun c t more h => ?_
  · unfold onward at h
    split at h
    · rename_i hc
      split at h
      · rename_i name hname
        cases h
        obtain ⟨behind, rfl⟩ := eq_of_bracedName? hname
        have htake : ('\x7b' :: name ++ '\x7d' :: behind).take (name.length + 2) =
            '\x7b' :: name ++ ['\x7d'] := by
          rw [List.append_cons, List.take_left']
          simp
        rw [lead, if_pos hc, hname, htake]
        rfl
      · rename_i hname
        split at h
        · cases h
        · cases h
          rw [lead, if_pos hc, hname]
          rfl
    · rename_i hc
      cases h
      rw [lead, if_neg hc, ← List.prefix_iff_eq_take.1 (List.takeWhile_prefix _)]
  · unfold onward at h
    split at h
    · rename_i hc
      split at h
      · cases h
      · rename_i hname
        rw [lead, if_pos hc, hname]
    · cases h

/-- The lexer fails at a brace that is never closed, and reads on behind its sigil. -/
theorem tokens_of_open_brace :
    onward.TakesLongest ∧ onward '&' "\x7bd$ %".toList = .failure 5 ∧
      onward.tokens "é&\x7bd$ %".toList = [⟨.plain, "é".toList, 0, 1⟩,
        ⟨.sigil, "&".toList, 1, 2⟩, ⟨.plain, "\x7bd".toList, 2, 4⟩, ⟨.sigil, "$".toList, 4, 5⟩,
        ⟨.plain, " ".toList, 5, 6⟩, ⟨.sigil, "%".toList, 6, 7⟩] ∧
      onward.tokens "é&\x7bd$ %".toList = scan "é&\x7bd$ %".toList ∧
      SinglePass "é&\x7bd$ %".toList (scan "é&\x7bd$ %".toList) := by
  obtain ⟨hscan, hpass⟩ := tokens_eq_single_pass takesLongest_onward "é&\x7bd$ %".toList
  refine ⟨takesLongest_onward, by cbv, ?_, hscan, hpass⟩
  rw [hscan]
  cbv

end Lexer

end SuiteIndex.Token
