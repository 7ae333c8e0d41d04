import SuiteIndex.Proofs.Table.Line

/-! # Rows written from their cells

A line is written by putting separators between texts. If the texts hold nothing that separates
cells or starts a comment, the row of the line has just these texts as its cells, whatever
separators stand between them; an indentation puts an empty cell in front.
-/

namespace SuiteIndex

namespace Segment

/-- A text that can be written as a cell: nothing in it reads as a separator, as a delimiter
or as a comment, and it has no white space at its ends. -/
structure Writable (t : Text) : Prop where
  ne_nil : t ≠ []
  head : ∀ c, t.head? = some c → Text.isBlank c = false
  last : ∀ c, t.getLast? = some c → Text.isBlank c = false
  no_tab : '\t' ∉ t
  no_pipe : '|' ∉ t
  no_spaces : ¬ [' ', ' '] <:+: t
  no_comment : ∀ i, ¬ CommentAt t i

/-- Spaces and tabs that separate cells; a single space does not. -/
structure Blanks (t : Text) : Prop where
  ne_nil : t ≠ []
  ne_space : t ≠ [' ']
  gap : ∀ c ∈ t, isGap c = true

/-- What can be written between two cells. -/
inductive Joint : Text → Prop where
  | blanks {t : Text} (h : Blanks t) : Joint t
  | pipe : Joint [' ', '|', ' ']

/-- The first cell, and further ones each behind a joint. -/
def joined (first : Text) (rest : List (Text × Text)) : Text :=
  first ++ rest.flatMap fun (joint, text) => joint ++ text

/-- A comment of the given text behind the last cell. -/
def commentOf : Option Text → Text
  | none => []
  | some text => ' ' :: ' ' :: '#' :: text

def piped (texts : List Text) : Text :=
  "| ".toList ++ Text.join " | ".toList texts ++ " |".toList

/-- No separator starts inside a text when more follows it. -/
def Unbroken (t more : Text) : Prop :=
  ∀ i < t.length, opens ((t ++ more).drop i) = false

namespace Unbroken

variable {t more : Text}

theorem nil (more : Text) : Unbroken [] more := by
  intro i hi
  cases hi

theorem cons {c : Char} (hc : opens (c :: (t ++ more)) = false) (h : Unbroken t more) :
    Unbroken (c :: t) more := by
  intro i hi
  cases i with
  | zero => exact hc
  | succ i => exact h i (Nat.lt_of_succ_lt_succ hi)

theorem append {before : Text} (hbefore : Unbroken before (t ++ more)) (h : Unbroken t more) :
    Unbroken (before ++ t) more := by
  intro i hi
  rw [List.append_assoc]
  by_cases hlt : i < before.length
  · exact hbefore i hlt
  · obtain ⟨k, rfl⟩ := Nat.exists_eq_add_of_le (Nat.le_of_not_lt hlt)
    rw [List.length_append] at hi
    rw [← List.drop_drop, List.drop_left]
    exact h k (by omega)

theorem space (hspace : more.head? ≠ some ' ') (hpipe : more.head? ≠ some '|') :
    Unbroken [' '] more := by
  refine cons ?_ (nil more)
  rw [List.nil_append, Bool.eq_false_iff]
  intro hopens
  rcases opens_cases hopens with ⟨u, hu⟩ | ⟨u, hu⟩ | ⟨u, hu⟩ <;> cases hu
  · exact hspace rfl
  · exact hpipe rfl

theorem of_writable (hlast : ∀ c, t.getLast? = some c → Text.isBlank c = false)
    (htab : '\t' ∉ t) (hpipe : '|' ∉ t) (hspaces : ¬ [' ', ' '] <:+: t) : Unbroken t more := by
  induction t with
  | nil => exact nil more
  | cons c t ih =>
    rw [List.mem_cons, not_or] at htab hpipe
    have hrest : Unbroken t more := by
      refine ih (fun d hd => hlast d ?_) htab.2 hpipe.2 fun h => hspaces (h.trans ?_)
      · rw [List.getLast?_cons, hd]
        rfl
      · exact (List.suffix_cons c t).isInfix
    refine cons ?_ hrest
    rw [Bool.eq_false_iff]
    intro hopens
    -- A separator that starts with the last character needs that one to be white space.
    cases t with
    | nil =>
      have hblank := isBlank_of_isGap (isGap_of_opens hopens)
      rw [hlast c rfl] at hblank
      cases hblank
    | cons d t =>
      rw [List.cons_append] at hopens
      rcases opens_cases hopens with ⟨u, hu⟩ | ⟨u, hu⟩ | ⟨u, hu⟩
      · exact htab.1 (List.cons.inj hu).1.symm
      · cases hu
        exact hspaces ⟨[], t, rfl⟩
      · obtain ⟨rfl, -⟩ := List.cons.inj (List.cons.inj hu).2
        exact hpipe.2 List.mem_cons_self

end Unbroken

theorem Writable.unbroken {t : Text} (h : Writable t) (more : Text) : Unbroken t more :=
  .of_writable h.last h.no_tab h.no_pipe h.no_spaces

theorem leading_append {t more : Text} (h : Unbroken t more)
    (hmore : more = [] ∨ opens more = true) : leading (t ++ more) = t := by
  induction t with
  | nil =>
    rcases hmore with rfl | hmore
    · rfl
    · cases more with
      | nil => rfl
      | cons c more => simp [leading, hmore]
  | cons c t ih =>
    have hc : opens (c :: (t ++ more)) = false := h 0 (Nat.succ_pos _)
    have hrest : Unbroken t more := fun i hi => h (i + 1) (Nat.succ_lt_succ hi)
    rw [List.cons_append, leading, if_neg (by simp [hc]), ih hrest]

variable {pipeForm : Bool} {number column : Nat} {stretch rest : Text}

theorem cells_append {separator : Text} (hstretch : Unbroken stretch (separator ++ rest))
    (hopens : opens (separator ++ rest) = true)
    (hwidth : width pipeForm (separator ++ rest) = separator.length) :
    cells pipeForm number column (stretch ++ (separator ++ rest)) =
      cell number column stretch ::
        cells pipeForm number (column + stretch.length + separator.length) rest := by
  have hleading := leading_append hstretch (.inr hopens)
  cases hline : stretch ++ (separator ++ rest) with
  | nil =>
    obtain ⟨-, hnil⟩ := List.append_eq_nil_iff.1 hline
    rw [hnil] at hopens
    cases hopens
  | cons c t =>
    rw [hline] at hleading
    rw [cells]
    simp only [hleading]
    rw [← hline, List.drop_left, hwidth, List.drop_left]

theorem cells_of_unbroken (hne : stretch ≠ []) (h : Unbroken stretch []) :
    cells pipeForm number column stretch = [cell number column stretch] := by
  have hleading := leading_append h (.inl rfl)
  rw [List.append_nil] at hleading
  obtain ⟨c, t, rfl⟩ := List.exists_cons_of_ne_nil hne
  rw [cells]
  simp only [hleading]
  rw [List.drop_length, width, List.drop_zero, cells]

/-- The texts of the cells that a piece of a line is cut into. -/
def contents (pipeForm : Bool) (number column : Nat) (t : Text) : List Text :=
  (cells pipeForm number column t).map Cell.content

/-- A gap ends where the text begins, and a separator takes in no pipe of it. -/
def Begins (t : Text) : Prop :=
  ∀ c, t.head? = some c → isGap c = false ∧ c ≠ '|'

theorem takeWhile_isGap {gap : Text} (hgap : ∀ c ∈ gap, isGap c = true) (hrest : Begins rest) :
    (gap ++ rest).takeWhile isGap = gap := by
  rw [List.takeWhile_append_of_pos hgap]
  cases rest with
  | nil => simp
  | cons c rest => simp [(hrest c rfl).1]

theorem width_gap {c : Char} {gap : Text} (hgap : ∀ c ∈ gap, isGap c = true)
    (hrest : Begins rest) : width pipeForm (c :: (gap ++ rest)) = (c :: gap).length := by
  have hpipe : pipeFollows rest = false := by
    rw [Bool.eq_false_iff]
    intro hfollows
    obtain ⟨u, rfl, -⟩ := pipeFollows_cases hfollows
    exact (hrest '|' rfl).2 rfl
  rw [width]
  simp only [takeWhile_isGap hgap hrest, List.drop_left, hpipe, Bool.false_and, List.length_cons]
  rw [if_neg Bool.false_ne_true, Nat.add_comm]

theorem width_pipe (hrest : Begins rest) :
    width pipeForm ([' ', '|', ' '] ++ rest) = 3 := by
  have hnil : ∀ c ∈ ([] : Text), isGap c = true := by simp
  have htake : rest.takeWhile isGap = [] := takeWhile_isGap hnil hrest
  have hspace : isGap ' ' = true := rfl
  have hbar : isGap '|' = false := rfl
  simp [width, pipeFollows, hspace, hbar, htake]

/-- A joint ends in a separator. Only a space before a tab may stand in front of it. -/
theorem Joint.exists_separator {joint : Text} (h : Joint joint) (pipeForm : Bool)
    (hrest : Begins rest) : ∃ pad separator, joint = pad ++ separator ∧
      (∀ c ∈ pad, Text.isBlank c = true) ∧ Unbroken pad (separator ++ rest) ∧
      opens (separator ++ rest) = true ∧
      width pipeForm (separator ++ rest) = separator.length := by
  cases h with
  | pipe => exact ⟨[], [' ', '|', ' '], rfl, by simp, .nil _, rfl, width_pipe hrest⟩
  | blanks h =>
    obtain ⟨c, gap, rfl⟩ := List.exists_cons_of_ne_nil h.ne_nil
    have hgap := h.gap
    rw [List.forall_mem_cons] at hgap
    obtain ⟨hc, hgap⟩ := hgap
    simp only [isGap, Bool.or_eq_true, decide_eq_true_eq] at hc
    rcases hc with rfl | rfl
    · cases gap with
      | nil => exact absurd rfl h.ne_space
      | cons d gap =>
        rw [List.forall_mem_cons] at hgap
        have hd := hgap.1
        simp only [isGap, Bool.or_eq_true, decide_eq_true_eq] at hd
        rcases hd with rfl | rfl
        · refine ⟨[], ' ' :: ' ' :: gap, rfl, by simp, .nil _, rfl, ?_⟩
          exact width_gap (List.forall_mem_cons.2 hgap) hrest
        · refine ⟨[' '], '\t' :: gap, rfl, List.forall_mem_singleton.2 rfl, ?_, rfl,
            width_gap hgap.2 hrest⟩
          exact .space (by simp) (by simp)
    · exact ⟨[], '\t' :: gap, rfl, by simp, .nil _, rfl, width_gap hgap hrest⟩

/-- The text before a joint becomes a cell, and reading goes on behind the joint. -/
theorem exists_contents (pipeForm : Bool) (number : Nat) {joint : Text} (hjoint : Joint joint)
    (hrest : Begins rest) (hstretch : Unbroken stretch (joint ++ rest)) (column : Nat) :
    ∃ next, contents pipeForm number column (stretch ++ (joint ++ rest)) =
      Text.trim stretch :: contents pipeForm number next rest := by
  obtain ⟨pad, separator, rfl, hblank, hpad, hopens, hwidth⟩ :=
    hjoint.exists_separator pipeForm hrest
  rw [List.append_assoc] at hstretch
  have htrim : Text.trim (stretch ++ pad) = Text.trim stretch := by
    obtain ⟨behind, hsplit, hbehind⟩ := Text.exists_trim_append stretch
    conv_lhs => rw [hsplit, List.append_assoc _ behind]
    refine Text.trim_append (fun c hc => List.mem_takeWhile_imp hc)
      (fun c hc => Text.isBlank_head_trim hc) (fun c hc => Text.isBlank_getLast_trim hc) ?_
    exact List.forall_mem_append.2 ⟨hbehind, hblank⟩
  refine ⟨column + (stretch ++ pad).length + separator.length, ?_⟩
  rw [contents, List.append_assoc pad, ← List.append_assoc stretch,
    cells_append (hstretch.append hpad) hopens hwidth, List.map_cons, content_cell, htrim]
  rfl

variable {first text lead tail : Text} {joints : List (Text × Text)}

theorem Writable.begins (h : Writable text) (more : Text) : Begins (text ++ more) := by
  obtain ⟨c, t, rfl⟩ := List.exists_cons_of_ne_nil h.ne_nil
  intro d hd
  obtain rfl : c = d := by simpa using hd
  refine ⟨?_, fun hpipe => h.no_pipe (hpipe ▸ List.mem_cons_self)⟩
  rw [Bool.eq_false_iff]
  intro hgap
  have hblank := isBlank_of_isGap hgap
  rw [h.head c rfl] at hblank
  cases hblank

theorem Writable.trim_append (h : Writable text) (hlead : ∀ c ∈ lead, Text.isBlank c = true)
    (htail : ∀ c ∈ tail, Text.isBlank c = true) : Text.trim (lead ++ text ++ tail) = text :=
  Text.trim_append hlead h.head h.last htail

theorem isBlank_lead (hlead : lead = [] ∨ lead = [' ']) : ∀ c ∈ lead, Text.isBlank c = true := by
  rcases hlead with rfl | rfl
  · simp
  · exact List.forall_mem_singleton.2 rfl

theorem unbroken_lead (hlead : lead = [] ∨ lead = [' ']) (hmore : Begins rest) :
    Unbroken lead rest := by
  rcases hlead with rfl | rfl
  · exact .nil rest
  · refine .space (fun hspace => ?_) fun hpipe => (hmore '|' hpipe).2 rfl
    cases (hmore ' ' hspace).1

theorem contents_last (hfirst : Writable first) (hlead : lead = [] ∨ lead = [' '])
    (htail : ∀ c ∈ tail, isGap c = true) (column : Nat) :
    contents pipeForm number column (lead ++ first ++ tail) = [first] := by
  have hfront (more : Text) : Unbroken (lead ++ first) more :=
    (unbroken_lead hlead (hfirst.begins more)).append (hfirst.unbroken more)
  have hblank := isBlank_lead hlead
  by_cases hblanks : tail = [] ∨ tail = [' ']
  · -- A single space is no separator, so the cell goes on to the end of the line.
    have hline : Unbroken (lead ++ first ++ tail) [] := by
      refine (hfront _).append ?_
      rcases hblanks with rfl | rfl
      · exact .nil []
      · exact .space (by simp) (by simp)
    have hne : lead ++ first ++ tail ≠ [] := by simp [hfirst.ne_nil]
    rw [contents, cells_of_unbroken hne hline, List.map_singleton, content_cell,
      hfirst.trim_append hblank fun c hc => isBlank_of_isGap (htail c hc)]
  · rw [not_or] at hblanks
    have hjoint : Joint tail := .blanks ⟨hblanks.1, hblanks.2, htail⟩
    have hend : Begins [] := by simp [Begins]
    obtain ⟨next, hcontents⟩ :=
      exists_contents pipeForm number hjoint hend (hfront _) column
    rw [List.append_nil] at hcontents
    rw [hcontents, Text.trim_append_left hblank hfirst.head hfirst.last, contents, cells]
    rfl

theorem contents_joined (hfirst : Writable first)
    (hjoints : ∀ part ∈ joints, Joint part.1 ∧ Writable part.2)
    (hlead : lead = [] ∨ lead = [' ']) (htail : ∀ c ∈ tail, isGap c = true) (column : Nat) :
    contents pipeForm number column (lead ++ joined first joints ++ tail) =
      first :: joints.map Prod.snd := by
  induction joints generalizing first lead column with
  | nil => simpa [joined] using contents_last hfirst hlead htail column
  | cons part joints ih =>
    obtain ⟨joint, text⟩ := part
    rw [List.forall_mem_cons] at hjoints
    obtain ⟨⟨hjoint, htext⟩, hjoints⟩ := hjoints
    have hline : lead ++ joined first ((joint, text) :: joints) ++ tail =
        (lead ++ first) ++ (joint ++ (joined text joints ++ tail)) := by
      simp [joined]
    have hrest : Begins (joined text joints ++ tail) := by
      rw [joined, List.append_assoc]
      exact htext.begins _
    have hfront : Unbroken (lead ++ first) (joint ++ (joined text joints ++ tail)) :=
      (unbroken_lead hlead (hfirst.begins _)).append (hfirst.unbroken _)
    obtain ⟨next, hcontents⟩ := exists_contents pipeForm number hjoint hrest hfront column
    have hblank := isBlank_lead hlead
    rw [hline, hcontents, Text.trim_append_left hblank hfirst.head hfirst.last, List.map_cons]
    exact congrArg _ (ih htext hjoints (.inl rfl) next)

/-- Nothing in the text starts a comment. -/
def Clear (t : Text) : Prop :=
  ∀ i, ¬ CommentAt t i

theorem Clear.append {before behind : Text} (hbefore : Clear before) (hbehind : Clear behind) :
    Clear (before ++ behind) := by
  rintro i ⟨hhash, hescaped⟩
  by_cases hi : i < before.length
  · rw [List.getElem?_append_left hi] at hhash
    refine hbefore i ⟨hhash, fun j hj => ?_⟩
    have hkept := hescaped j hj
    have hlt : j < before.length := by omega
    rwa [List.getElem?_append_left hlt] at hkept
  · obtain ⟨k, rfl⟩ := Nat.exists_eq_add_of_le (Nat.le_of_not_lt hi)
    rw [Text.getElem?_add] at hhash
    refine hbehind k ⟨hhash, fun j hj => ?_⟩
    have hshifted := hescaped (before.length + j) (by omega)
    rwa [Text.getElem?_add] at hshifted

theorem clear_of_not_mem {t : Text} (h : '#' ∉ t) : Clear t :=
  fun _ hcomment => h (List.mem_of_getElem? hcomment.1)

theorem clear_of_gaps {gap : Text} (hgap : ∀ c ∈ gap, isGap c = true) : Clear gap := by
  refine clear_of_not_mem fun hhash => ?_
  cases hgap '#' hhash

theorem Joint.clear {joint : Text} (h : Joint joint) : Clear joint := by
  cases h with
  | blanks h => exact clear_of_gaps h.gap
  | pipe => exact clear_of_not_mem (by decide)

theorem clear_joined (hfirst : Writable first)
    (hjoints : ∀ part ∈ joints, Joint part.1 ∧ Writable part.2) : Clear (joined first joints) := by
  refine Clear.append hfirst.no_comment ?_
  induction joints with
  | nil => exact clear_of_not_mem (by simp)
  | cons part joints ih =>
    rw [List.forall_mem_cons] at hjoints
    obtain ⟨⟨hjoint, htext⟩, hjoints⟩ := hjoints
    exact (hjoint.clear.append htext.no_comment).append (ih hjoints)

theorem uncommented_append {t more : Text} (ht : Clear t)
    (hmore : more = [] ∨ CommentAt (t ++ more) t.length) : uncommented false (t ++ more) = t := by
  obtain ⟨behind, hsplit⟩ := uncommented_isPrefix false (t ++ more)
  have hbody := body_uncommented (t ++ more)
  generalize uncommented false (t ++ more) = body at hbody hsplit ⊢
  have hlength : body.length = t.length := by
    rcases Nat.lt_trichotomy body.length t.length with hlt | heq | hgt
    · -- A comment that started earlier would start inside `t`.
      obtain ⟨hhash, hescaped⟩ := hbody.comment (by rw [List.length_append]; omega)
      rw [List.getElem?_append_left hlt] at hhash
      refine absurd ⟨hhash, fun j hj => ?_⟩ (ht body.length)
      have hkept := hescaped j hj
      have hbefore : j < t.length := by omega
      rwa [List.getElem?_append_left hbefore] at hkept
    · exact heq
    · rcases hmore with rfl | hcomment
      · have htotal := congrArg List.length hsplit
        simp only [List.length_append, List.append_nil] at htotal
        omega
      · exact absurd hcomment (hbody.clear t.length hgt)
  exact (List.append_inj hsplit hlength).1

theorem uncommented_eq_self {t : Text} (ht : Clear t) : uncommented false t = t := by
  have hsame := uncommented_append ht (.inl rfl)
  rwa [List.append_nil] at hsame

theorem line_of_plain {t : Text} (h : inPipeForm (uncommented false t) = false) :
    line number t = cells false number 0 (uncommented false t) := by
  obtain ⟨front, region, back, hregion, hline⟩ := exists_region number t
  rw [hline, h]
  generalize uncommented false t = body at hregion h
  cases hregion with
  | plain => rfl
  | pipes hblanks =>
    rw [List.append_assoc, List.append_assoc, List.singleton_append,
      inPipeForm_pipes hblanks] at h
    cases h

theorem inPipeForm_joined {indent : Text} (hindent : ∀ c ∈ indent, isGap c = true)
    (hfirst : Writable first) : inPipeForm (indent ++ joined first joints ++ tail) = false := by
  have hblank : ∀ c ∈ indent, Text.isBlank c = true := fun c hc => isBlank_of_isGap (hindent c hc)
  obtain ⟨c, t, rfl⟩ := List.exists_cons_of_ne_nil hfirst.ne_nil
  have hc : ¬ Text.isBlank c = true := by simp [hfirst.head c rfl]
  have hpipe : c ≠ '|' := fun heq => hfirst.no_pipe (heq ▸ List.mem_cons_self)
  simp [inPipeForm, joined, List.dropWhile_append_of_pos hblank, List.dropWhile_cons_of_neg hc,
    hpipe]

theorem contents_indented {indent : Text} (hindent : indent = [] ∨ Blanks indent)
    (hfirst : Writable first) (hjoints : ∀ part ∈ joints, Joint part.1 ∧ Writable part.2)
    (htail : ∀ c ∈ tail, isGap c = true) (column : Nat) :
    contents pipeForm number column (indent ++ joined first joints ++ tail) =
      (if indent = [] then [] else [[]]) ++ first :: joints.map Prod.snd := by
  rcases hindent with rfl | hblanks
  · exact contents_joined hfirst hjoints (.inl rfl) htail column
  · have hrest : Begins (joined first joints ++ tail) := by
      rw [joined, List.append_assoc]
      exact hfirst.begins _
    obtain ⟨next, hcontents⟩ :=
      exists_contents pipeForm number (.blanks hblanks) hrest (.nil _) column
    rw [List.nil_append, ← List.append_assoc] at hcontents
    rw [hcontents, if_neg hblanks.ne_nil]
    exact congrArg _ (contents_joined hfirst hjoints (.inl rfl) htail next)

theorem join_eq_joined (glue first : Text) (texts : List Text) :
    Text.join glue (first :: texts) = joined first (texts.map (glue, ·)) := by
  induction texts generalizing first with
  | nil => simp [Text.join, joined]
  | cons text texts ih => simp [Text.join, ih, joined]

theorem contents_piped {texts : List Text} (hfirst : Writable first)
    (htexts : ∀ text ∈ texts, Writable text) :
    (line number (piped (first :: texts))).map Cell.content = first :: texts := by
  have hjoints : ∀ part ∈ texts.map (" | ".toList, ·), Joint part.1 ∧ Writable part.2 := by
    simpa using fun text htext => ⟨Joint.pipe, htexts text htext⟩
  have hpiped : piped (first :: texts) =
      '|' :: (' ' :: joined first (texts.map (" | ".toList, ·)) ++ [' ', '|']) := by
    rw [piped, join_eq_joined]
    rfl
  have hclear : Clear (piped (first :: texts)) := by
    rw [piped, join_eq_joined]
    refine Clear.append (Clear.append ?_ (clear_joined hfirst hjoints)) ?_
    · exact clear_of_not_mem (by decide)
    · exact clear_of_not_mem (by decide)
  have hbar : ¬ Text.isBlank '|' = true := by decide
  have hclosing :
      dropClosingPipe (' ' :: joined first (texts.map (" | ".toList, ·)) ++ [' ', '|']) =
        ' ' :: joined first (texts.map (" | ".toList, ·)) ++ [' '] := by
    rw [List.append_cons _ ' ' ['|']]
    refine dropClosingPipe_of_closing (.pipe (fun c hc => ?_) (by simp))
    rw [List.getLast?_concat] at hc
    obtain rfl := Option.some.inj hc
    decide
  have hcontents : contents true number 1
      ([' '] ++ joined first (texts.map (" | ".toList, ·)) ++ [' ']) = _ :=
    contents_joined hfirst hjoints (.inr rfl) (List.forall_mem_singleton.2 rfl) 1
  rw [line, uncommented_eq_self hclear, hpiped]
  simp only [List.dropWhile_cons_of_neg hbar, hclosing]
  have hindent : Text.indentation ('|' ::
      (' ' :: joined first (texts.map (" | ".toList, ·)) ++ [' ', '|'])) = 0 := by
    rw [Text.indentation, List.takeWhile_cons_of_neg hbar, List.length_nil]
  rw [hindent]
  exact hcontents.trans (by simp [Function.comp_def])

end Segment

open Segment in
/-- A row that is written from texts has them as its cells, with the separators of plain rows
as well as with those of rows in pipe form. -/
theorem Row.contents_read_written (number : Nat) {indent first : Text}
    {joints : List (Text × Text)} (comment : Option Text)
    (hindent : indent = [] ∨ Blanks indent) (hfirst : Writable first)
    (hjoints : ∀ part ∈ joints, Joint part.1 ∧ Writable part.2) :
    ((Row.read number (indent ++ joined first joints ++ commentOf comment)).cells.map Cell.content =
        (if indent = [] then [] else [[]]) ++ first :: joints.map Prod.snd) ∧
      (Row.read number (piped (first :: joints.map Prod.snd))).cells.map Cell.content =
        first :: joints.map Prod.snd := by
  have hgap : ∀ c ∈ indent, isGap c = true := by
    rcases hindent with rfl | hblanks
    · simp
    · exact hblanks.gap
  have hclear : Clear (indent ++ joined first joints) :=
    (clear_of_gaps hgap).append (clear_joined hfirst hjoints)
  obtain ⟨tail, htail, hbody⟩ : ∃ tail : Text, (∀ c ∈ tail, isGap c = true) ∧
      uncommented false (indent ++ joined first joints ++ commentOf comment) =
        indent ++ joined first joints ++ tail := by
    cases comment with
    | none => exact ⟨[], by simp, by rw [commentOf, List.append_nil, uncommented_eq_self hclear]⟩
    | some text =>
      have hspaces : ∀ c ∈ [' ', ' '], isGap c = true := by simp [isGap]
      refine ⟨[' ', ' '], hspaces, ?_⟩
      have hsplit : indent ++ joined first joints ++ commentOf (some text) =
          (indent ++ joined first joints ++ [' ', ' ']) ++ '#' :: text := by
        simp [commentOf]
      rw [hsplit]
      refine uncommented_append (hclear.append (clear_of_gaps hspaces)) (.inr ⟨by simp, ?_⟩)
      intro j hj
      obtain rfl : j = (indent ++ joined first joints ++ [' ']).length := by
        simp only [List.length_append, List.length_cons, List.length_nil] at hj ⊢
        omega
      simp
  refine ⟨?_, contents_piped hfirst ?_⟩
  · show (line number _).map Cell.content = _
    have hform : inPipeForm (indent ++ joined first joints ++ tail) = false :=
      inPipeForm_joined hgap hfirst
    rw [← hbody] at hform
    rw [line_of_plain hform, hbody]
    exact contents_indented hindent hfirst hjoints htail 0
  · simpa using fun text joint hpart => (hjoints (joint, text) hpart).2

open Segment in
/-- A single space belongs to a cell, with a tab behind it it separates cells, and an escaped
hash sign starts no comment. -/
theorem Row.contents_read_written_escaped :
    Blanks " \t".toList ∧ Writable "Log it".toList ∧ Joint " \t".toList ∧
      Writable "\\#1".toList ∧
      (Row.read 4 " \tLog it \t\\#1 | Log it  # done".toList).cells.map Cell.content =
        [[], "Log it".toList, "\\#1".toList, "Log it".toList] ∧
      (Row.read 4 "| Log it | \\#1 | Log it |".toList).cells.map Cell.content =
        ["Log it".toList, "\\#1".toList, "Log it".toList] := by
  have hblanks : Blanks " \t".toList := ⟨by decide, by decide, by simp [isGap]⟩
  have hlog : Writable "Log it".toList := by
    refine ⟨by decide, ?_, ?_, by decide, by decide, by decide, clear_of_not_mem (by decide)⟩
    · intro c hc
      cases hc
      decide
    · intro c hc
      cases hc
      decide
  have hone : Writable "\\#1".toList := by
    refine ⟨by decide, ?_, ?_, by decide, by decide, by decide, ?_⟩
    · intro c hc
      cases hc
      decide
    · intro c hc
      cases hc
      decide
    · rintro i ⟨hhash, hescaped⟩
      obtain rfl : i = 1 := by
        rcases i with _ | _ | _ | i <;> simp_all
      exact hescaped 0 rfl rfl
  have hjoints : ∀ part ∈ [(" \t".toList, "\\#1".toList), (" | ".toList, "Log it".toList)],
      Joint part.1 ∧ Writable part.2 := by
    simpa using ⟨⟨.blanks hblanks, hone⟩, .pipe, hlog⟩
  have hread := Row.contents_read_written 4 (some " done".toList) (.inr hblanks) hlog hjoints
  exact ⟨hblanks, hlog, .blanks hblanks, hone, hread⟩

end SuiteIndex
