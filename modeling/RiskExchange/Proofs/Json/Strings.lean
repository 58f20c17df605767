import Mathlib.Tactic.IntervalCases
import RiskExchange.Json.Printer
import RiskExchange.Json.Value
import RiskExchange.Proofs.Json.Grammar

/-! # Strings — a printed string is read as it was

    Each character of a printed string spells one piece, `pieceOf`, and the
    pieces are read back as the characters (`read_literalOf`). -/

namespace RiskExchange.Json

variable {c : Char}

/-- The piece that a printed character is lexed into. -/
def pieceOf (c : Char) : Piece :=
  if c = '"' ∨ c = '\\' then .short c
  else if c = '\x08' ∨ c = '\x0c' ∨ c = '\n' ∨ c = '\r' ∨ c = '\t' then .short c
  else if c.toNat < 0x20 then .unit c.toNat
  else .plain c

/-- The literal that a printed string is lexed into. -/
def literalOf (s : String) : StringLiteral :=
  ⟨s.toList.map pieceOf, .closed⟩

/-! ## Spelling -/

private theorem hexDigit?_hexDigit {k : Nat} (hk : k < 16) :
    hexDigit? (.char (hexDigit k)) = some k := by
  interval_cases k <;> rfl

/-- The escape of a control character that has no letter. -/
private theorem spellsPiece_unit {n : Nat} (hn : n < 0x20) :
    SpellsPiece (.unit n)
      ['\\', 'u', '0', '0', hexDigit (n / 16), hexDigit (n % 16)] := by
  have hzero : hexDigit? (.char '0') = some 0 := rfl
  have hunit := SpellsPiece.unit hzero hzero
    (hexDigit?_hexDigit (k := n / 16) (by omega))
    (hexDigit?_hexDigit (k := n % 16) (by omega))
  have hvalue : ((0 * 16 + 0) * 16 + n / 16) * 16 + n % 16 = n := by omega
  rwa [hvalue] at hunit

theorem spellsPiece_escapedChar (c : Char) :
    SpellsPiece (pieceOf c) (escapedChar c) := by
  by_cases hshort : c ∈ ['"', '\\', '\x08', '\x0c', '\n', '\r', '\t']
  · simp only [List.mem_cons, List.not_mem_nil, or_false] at hshort
    rcases hshort with rfl | rfl | rfl | rfl | rfl | rfl | rfl
    all_goals exact .short rfl
  · simp only [List.mem_cons, List.not_mem_nil, or_false, not_or] at hshort
    obtain ⟨hq, hb, h8, h12, h10, h13, h9⟩ := hshort
    by_cases hc : c.toNat < 0x20
    · have hpiece : pieceOf c = .unit c.toNat := by
        simp [pieceOf, hq, hb, h8, h12, h10, h13, h9, hc]
      have htext : escapedChar c = ['\\', 'u', '0', '0',
          hexDigit (c.toNat / 16), hexDigit (c.toNat % 16)] := by
        simp [escapedChar, hq, hb, h8, h12, h10, h13, h9, hc]
      rw [hpiece, htext]
      exact spellsPiece_unit hc
    · have hpiece : pieceOf c = .plain c := by
        simp [pieceOf, hq, hb, h8, h12, h10, h13, h9, hc]
      have htext : escapedChar c = [c] := by
        simp [escapedChar, hq, hb, h8, h12, h10, h13, h9, hc]
      rw [hpiece, htext]
      exact .plain hq hb (Nat.not_lt.mp hc)

/-- A printed string spells its literal. -/
theorem spellsString_print (s : String) :
    SpellsString (literalOf s) (printString s) := by
  have h : List.Forall₂ SpellsPiece (s.toList.map pieceOf)
      (s.toList.map escapedChar) := by
    refine List.forall₂_map_left_iff.mpr (List.forall₂_map_right_iff.mpr ?_)
    exact List.forall₂_same.mpr fun c _ => spellsPiece_escapedChar c
  rw [printString, List.flatMap_def]
  exact .intro h

/-! ## Reading -/

private theorem readPieces_pieceOf (c : Char) (pieces : List Piece) :
    readPieces .closed true (pieceOf c :: pieces)
      = (readPieces .closed true pieces).map (c :: ·) := by
  have hbind (x : Except Fault (List Char)) :
      (do return c :: (← x)) = x.map (c :: ·) := by
    cases x <;> rfl
  rw [pieceOf]
  split
  · exact hbind _
  · split
    · exact hbind _
    · split
      next hc =>
        have hlow : isLowSurrogate c.toNat = false := by
          simp [isLowSurrogate]
          omega
        have hhigh : isHighSurrogate c.toNat = false := by
          simp [isHighSurrogate]
          omega
        conv => lhs; unfold readPieces
        rw [if_neg (by rw [hlow]; decide), if_neg (by rw [hhigh]; decide),
          Char.ofNat_toNat]
        exact hbind _
      · exact hbind _

/-- The literal of a printed string is read as the string. -/
theorem read_literalOf (s : String) : (literalOf s).read = .ok s := by
  have hpieces (cs : List Char) :
      readPieces .closed true (cs.map pieceOf) = .ok cs := by
    induction cs with
    | nil => rfl
    | cons c more ih =>
        rw [List.map_cons, readPieces_pieceOf, ih]
        rfl
  rw [StringLiteral.read, literalOf]
  rw [hpieces]
  change Except.ok (String.ofList s.toList) = _
  rw [String.ofList_toList]

end RiskExchange.Json
