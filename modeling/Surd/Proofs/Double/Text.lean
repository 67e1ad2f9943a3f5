import Surd.Proofs.Decimal.Reading

/-!
# Doubles as they are written

The text of a double is read back as that double, the infinities and "not a number" included
(`Double.ofText?_text`). What a decimal is read from has no blanks, underscores or names in it, so that the reading of a
double, which looks for those first, comes down to the reading of a decimal.
-/

namespace Surd

variable {cs : List Char} {r : Decimal} {s : Bool} {e : Int}

/-! ## The characters of a decimal -/

theorem isDecimalChar_of_mem_digitRun {c : Char} (h : c ∈ (digitRun cs).1) : isDecimalChar c = true := by
  apply isDecimalChar_of_isNumeralChar
  rw [isNumeralChar, List.mem_takeWhile_imp h, Bool.true_or]

theorem mem_digitRun {c : Char} (h : c ∈ cs) : c ∈ (digitRun cs).1 ∨ c ∈ (digitRun cs).2 := by
  rw [digitRun]
  exact List.mem_append.mp (List.takeWhile_append_dropWhile ▸ h)

/-- A sign is the only character that is lost with it. -/
theorem isDecimalChar_of_signRun (h : ∀ c ∈ (signRun cs).2, isDecimalChar c = true) :
    ∀ c ∈ cs, isDecimalChar c = true := by
  unfold signRun at h
  split at h
  · exact List.forall_mem_cons.mpr ⟨by decide, h⟩
  · exact List.forall_mem_cons.mpr ⟨by decide, h⟩
  · exact h

theorem isDecimalChar_of_exponentPart? (h : exponentPart? cs = some e) : ∀ c ∈ cs, isDecimalChar c = true := by
  cases cs with
  | nil => exact List.forall_mem_nil _
  | cons mark rest =>
      rw [exponentPart?] at h
      split_ifs at h with marked
      dsimp only at h
      split at h
      case h_2 => cases h
      case h_1 run =>
        have mark : isDecimalChar mark = true := by obtain rfl | rfl := marked <;> decide
        refine List.forall_mem_cons.mpr ⟨mark, isDecimalChar_of_signRun fun c hc => ?_⟩
        obtain digit | hc := mem_digitRun hc
        · exact isDecimalChar_of_mem_digitRun digit
        · rw [run] at hc
          exact absurd hc List.not_mem_nil

namespace Decimal

theorem isDecimalChar_of_ofText? (h : ofText? s cs = some r) : ∀ c ∈ cs, isDecimalChar c = true := by
  intro c hc
  obtain digit | hc := mem_digitRun hc
  · exact isDecimalChar_of_mem_digitRun digit
  · rw [ofText?] at h
    dsimp only at h
    split at h
    · rename_i tail run
      rw [run] at hc
      obtain rfl | hc := List.mem_cons.mp hc
      · decide
      · split_ifs at h
        obtain ⟨e, power, _⟩ := Option.map_eq_some_iff.mp h
        obtain digit | hc := mem_digitRun hc
        · exact isDecimalChar_of_mem_digitRun digit
        · exact isDecimalChar_of_exponentPart? power c hc
    · split_ifs at h
      obtain ⟨e, power, _⟩ := Option.map_eq_some_iff.mp h
      exact isDecimalChar_of_exponentPart? power c hc

/-- What is read as a decimal is read as its double. -/
theorem ofText?_of_read? (h : read? cs = some r) : Double.ofText? cs = some r.toDouble := by
  have body : ofText? (signRun cs).1 (signRun cs).2 = some r := h
  have chars := isDecimalChar_of_signRun (isDecimalChar_of_ofText? body)
  rw [Double.ofText?_of_decimal chars, body, Option.map_some]

end Decimal

namespace Double

/-- **Doubles are read back.** The text of a double denotes that double. -/
theorem ofText?_text (x : Double) : ofText? x.text.toList = some x := by
  cases x with
  | nan => decide +kernel
  | infinite s => cases s <;> decide +kernel
  | finite s m e fits =>
      obtain ⟨r, read, sign, same⟩ := Decimal.exists_read?_write (Decimal.shortest (finite s m e fits))
      have back := Decimal.toDouble_congr sign ((Decimal.value_eq_iff sign).mp same)
      rw [Decimal.toDouble_shortest rfl] at back
      exact (Decimal.ofText?_of_read? read).trans (congrArg some back)

end Double

end Surd
