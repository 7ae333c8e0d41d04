import Mathlib.Data.List.TakeWhile
import SuiteIndex.Proofs.Text.Trim
import SuiteIndex.Token

/-! # Tokens spell their cell

The tokens of a text follow one another without gaps, and their texts make up the whole
of it.
-/

namespace SuiteIndex.Token

/-- The tokens are pieces of the text, in order, the first of them at `offset`. -/
inductive Spells : Nat → Text → List Token → Prop where
  | nil (offset : Nat) : Spells offset [] []
  | cons {offset : Nat} {kind : Kind} {piece rest : Text} {tokens : List Token} (hne : piece ≠ [])
    (hrest : Spells (offset + piece.length) rest tokens) :
    Spells offset (piece ++ rest) (⟨kind, piece, offset, offset + piece.length⟩ :: tokens)

theorem eq_of_bracedName? {t name : Text} (h : bracedName? t = some name) :
    ∃ rest, t = '\x7b' :: name ++ '\x7d' :: rest := by
  cases t with
  | nil => simp [bracedName?] at h
  | cons c t =>
    by_cases hc : c = '\x7b'
    · subst hc
      have hsplit := List.takeWhile_append_dropWhile (p := (· ≠ '\x7d')) (l := t)
      simp only [bracedName?] at h
      split at h
      · cases h
      · rename_i hclosed
        obtain rfl := Option.some.inj h
        cases hdrop : t.dropWhile (· ≠ '\x7d') with
        | nil => exact absurd (by rw [hdrop]; exact Bool.or_true _) hclosed
        | cons d rest =>
          have hd := List.head?_dropWhile_not (· ≠ '\x7d') t
          rw [hdrop] at hd hsplit
          obtain rfl : d = '\x7d' := by simpa using hd
          exact ⟨rest, by simp only [List.cons_append, hsplit]⟩
    · unfold bracedName? at h
      split at h
      · rename_i heq
        cases heq
        exact absurd rfl hc
      · cases h

theorem exists_lead (c : Char) (t : Text) :
    ∃ more, (lead c t).2 = c :: more ∧ t = more ++ t.drop more.length := by
  unfold lead
  split
  · split
    · rename_i name hname
      obtain ⟨rest, rfl⟩ := eq_of_bracedName? hname
      exact ⟨'\x7b' :: name ++ ['\x7d'], rfl, by simp⟩
    · exact ⟨[], rfl, rfl⟩
  · refine ⟨t.takeWhile (!isSigil ·), rfl, ?_⟩
    rw [Text.drop_length_takeWhile, List.takeWhile_append_dropWhile]

theorem of_lead_reference {c : Char} {t text : Text} (h : lead c t = (.reference, text)) :
    isSigil c = true ∧ ∃ name, bracedName? t = some name ∧
      text = c :: '\x7b' :: name ++ ['\x7d'] := by
  unfold lead at h
  split at h
  · rename_i hsigil
    split at h
    · rename_i name hname
      cases h
      exact ⟨hsigil, name, hname, rfl⟩
    · cases h
  · cases h

theorem exists_lead_of_mem {offset : Nat} {t : Text} {token : Token}
    (h : token ∈ scanFrom offset t) : ∃ c rest, lead c rest = (token.kind, token.text) := by
  fun_induction scanFrom offset t with
  | case1 => cases h
  | case2 offset c t kind text hlead ih =>
    rcases List.mem_cons.1 h with rfl | h
    · exact ⟨c, t, hlead⟩
    · exact ih h

theorem exists_bracedName_of_mem {offset : Nat} {t : Text} {token : Token}
    (h : token ∈ scanFrom offset t) (hreference : token.isReference = true) :
    ∃ c rest name, isSigil c = true ∧ bracedName? rest = some name ∧
      token.text = c :: '\x7b' :: name ++ ['\x7d'] := by
  obtain ⟨c, rest, hlead⟩ := exists_lead_of_mem h
  have hkind : token.kind = .reference := by simpa [isReference] using hreference
  rw [hkind] at hlead
  obtain ⟨hsigil, name, hname, htext⟩ := of_lead_reference hlead
  exact ⟨c, rest, name, hsigil, hname, htext⟩

theorem spells_scanFrom (offset : Nat) (t : Text) : Spells offset t (scanFrom offset t) := by
  fun_induction scanFrom offset t with
  | case1 offset => exact .nil offset
  | case2 offset c t kind text hlead ih =>
    obtain ⟨more, hmore, ht⟩ := exists_lead c t
    rw [hlead] at hmore
    obtain rfl : text = c :: more := hmore
    rw [List.length_cons, Nat.add_sub_cancel] at ih ⊢
    have hspells := @Spells.cons _ kind _ _ _ (List.cons_ne_nil c more) ih
    rwa [List.cons_append, ← ht] at hspells

theorem spells_scan (content : Text) : Spells 0 content (scan content) :=
  spells_scanFrom 0 content

namespace Spells

variable {offset : Nat} {t : Text} {tokens : List Token}

theorem bounds (h : Spells offset t tokens) {token : Token} (htoken : token ∈ tokens) :
    token.start ≤ token.stop ∧ token.stop ≤ offset + t.length := by
  induction h with
  | nil => cases htoken
  | cons _ _ ih =>
    rw [List.length_append]
    rcases List.mem_cons.1 htoken with rfl | htoken
    · constructor
      · exact Nat.le_add_right _ _
      · dsimp only
        omega
    · have htail := ih htoken
      omega

theorem head (h : Spells offset t tokens) {token : Token} (htoken : tokens.head? = some token) :
    token.start = offset ∧ token.stop = offset + token.text.length ∧
      t = token.text ++ t.drop token.text.length := by
  cases h with
  | nil => cases htoken
  | cons =>
    obtain rfl := Option.some.inj htoken
    simp

end Spells

end SuiteIndex.Token
