import Arlen.Lib.Utf8

/-!
# What lossy decoding keeps

A character that lossy decoding shows, the replacement character apart, was there in its own
bytes. An ASCII byte is shown wherever it stands, and what stands before and behind it is
decoded as if it stood alone.
-/

namespace Arlen.Lib

variable {a b x y z : UInt8} {s t rest : Bytes}

/-! ## One character -/

theorem toNat_val_ofNat {n : Nat} (h : n.isValidChar) : (Char.ofNat n).val.toNat = n := by
  rw [Char.ofNat, dif_pos h]
  rfl

theorem ofNat_eq_of_toNat {n : Nat} (h : n = x.toNat) : UInt8.ofNat n = x := by
  rw [h, UInt8.ofNat_toNat]

theorem isContinuation_iff : isContinuation b = true ↔ 128 ≤ b.toNat ∧ b.toNat ≤ 191 := by
  simp [isContinuation, UInt8.le_iff_toNat_le]

theorem utf8Width_eq_two : utf8Width b = 2 ↔ 194 ≤ b.toNat ∧ b.toNat ≤ 223 := by
  simp only [utf8Width, UInt8.le_iff_toNat_le, Bool.and_eq_true, decide_eq_true_eq]
  split_ifs <;> simp_all

theorem utf8Width_eq_three : utf8Width b = 3 ↔ 224 ≤ b.toNat ∧ b.toNat ≤ 239 := by
  simp only [utf8Width, UInt8.le_iff_toNat_le, Bool.and_eq_true, decide_eq_true_eq]
  split_ifs <;> simp_all
  omega

theorem utf8Width_eq_four : utf8Width b = 4 ↔ 240 ≤ b.toNat ∧ b.toNat ≤ 244 := by
  simp only [utf8Width, UInt8.le_iff_toNat_le, Bool.and_eq_true, decide_eq_true_eq]
  split_ifs <;> simp_all <;> omega

/-- A second byte in range continues the character. -/
theorem continuation_of_secondInRange (h : secondInRange b x = true) :
    128 ≤ x.toNat ∧ x.toNat ≤ 191 := by
  unfold secondInRange at h
  split_ifs at h <;>
    simp [isContinuation, UInt8.le_iff_toNat_le] at h <;> omega

/-- The limits of a second byte behind the four first bytes that have their own. -/
theorem secondInRange_limits (h : secondInRange b x = true) :
    (b.toNat = 224 → 160 ≤ x.toNat) ∧ (b.toNat = 237 → x.toNat ≤ 159) ∧
      (b.toNat = 240 → 144 ≤ x.toNat) ∧ (b.toNat = 244 → x.toNat ≤ 143) := by
  have hnat : ∀ c : UInt8, b = c ↔ b.toNat = c.toNat := fun c => UInt8.toNat_inj.symm
  unfold secondInRange at h
  simp only [hnat] at h
  split_ifs at h <;>
    simp [isContinuation, UInt8.le_iff_toNat_le] at * <;> omega

theorem utf8EncodeChar_two (hb : utf8Width b = 2) (hx : isContinuation x = true) :
    String.utf8EncodeChar (Char.ofNat (addContinuation (b.toNat % 32) x)) = [b, x] := by
  rw [utf8Width_eq_two] at hb
  rw [isContinuation_iff] at hx
  unfold addContinuation
  have hval := toNat_val_ofNat (n := 64 * (b.toNat % 32) + x.toNat % 64) (Or.inl (by omega))
  unfold String.utf8EncodeChar
  rw [hval]
  dsimp only
  rw [if_neg (by omega), if_pos (by omega), ofNat_eq_of_toNat (x := b) (by omega),
    ofNat_eq_of_toNat (x := x) (by omega)]

theorem utf8EncodeChar_three (hb : utf8Width b = 3) (hx : secondInRange b x = true)
    (hy : isContinuation y = true) :
    String.utf8EncodeChar
      (Char.ofNat (addContinuation (addContinuation (b.toNat % 16) x) y)) = [b, x, y] := by
  rw [utf8Width_eq_three] at hb
  rw [isContinuation_iff] at hy
  have hlimits := secondInRange_limits hx
  have hx' := continuation_of_secondInRange hx
  unfold addContinuation
  have hval := toNat_val_ofNat
    (n := 64 * (64 * (b.toNat % 16) + x.toNat % 64) + y.toNat % 64) (by
      rw [Nat.isValidChar]
      omega)
  unfold String.utf8EncodeChar
  rw [hval]
  dsimp only
  rw [if_neg (by omega), if_neg (by omega), if_pos (by omega),
    ofNat_eq_of_toNat (x := b) (by omega), ofNat_eq_of_toNat (x := x) (by omega),
    ofNat_eq_of_toNat (x := y) (by omega)]

theorem utf8EncodeChar_four (hb : utf8Width b = 4) (hx : secondInRange b x = true)
    (hy : isContinuation y = true) (hz : isContinuation z = true) :
    String.utf8EncodeChar (Char.ofNat (addContinuation
      (addContinuation (addContinuation (b.toNat % 8) x) y) z)) = [b, x, y, z] := by
  rw [utf8Width_eq_four] at hb
  rw [isContinuation_iff] at hy hz
  have hlimits := secondInRange_limits hx
  have hx' := continuation_of_secondInRange hx
  unfold addContinuation
  have hval := toNat_val_ofNat
    (n := 64 * (64 * (64 * (b.toNat % 8) + x.toNat % 64) + y.toNat % 64) + z.toNat % 64) (by
      rw [Nat.isValidChar]
      omega)
  unfold String.utf8EncodeChar
  rw [hval]
  dsimp only
  rw [if_neg (by omega), if_neg (by omega), if_neg (by omega),
    ofNat_eq_of_toNat (x := b) (by omega), ofNat_eq_of_toNat (x := x) (by omega),
    ofNat_eq_of_toNat (x := y) (by omega), ofNat_eq_of_toNat (x := z) (by omega)]

/-! ## One step -/

/-- **A step reads a character that is there**, or shows the replacement character; either
way it reads bytes off the front. -/
theorem lossyStep_spec (b : UInt8) (rest : Bytes) :
    ∃ used, b :: rest = (b :: used) ++ (lossyStep b rest).2 ∧
      ((lossyStep b rest).1 = replacementChar ∨
        String.utf8EncodeChar (lossyStep b rest).1 = b :: used) := by
  by_cases hascii : b < 0x80
  · have hnat : b.toNat < 128 := UInt8.lt_iff_toNat_lt.1 hascii
    refine ⟨[], ?_, Or.inr ?_⟩
    · rw [lossyStep_ascii hnat]
      rfl
    · have hval : (Char.ofNat b.toNat).val.toNat = b.toNat := toNat_val_ofNat (Or.inl (by omega))
      rw [lossyStep_ascii hnat, utf8EncodeChar_ascii (by rw [Char.toNat, hval]; exact hnat)]
      rw [Char.toNat, hval, UInt8.ofNat_toNat]
  unfold lossyStep
  rw [if_neg hascii]
  split
  · next second rest hwidth =>
    split
    · next hsecond => exact ⟨[second], rfl, Or.inr (utf8EncodeChar_two hwidth hsecond)⟩
    · exact ⟨[], rfl, Or.inl rfl⟩
  · next second third rest hwidth =>
    split
    · next hsecond =>
      split
      · next hthird => exact ⟨[second, third], rfl, Or.inr (utf8EncodeChar_three hwidth hsecond hthird)⟩
      · exact ⟨[second], rfl, Or.inl rfl⟩
    · exact ⟨[], rfl, Or.inl rfl⟩
  · next second third fourth rest hwidth =>
    split
    · next hsecond =>
      split
      · next hthird =>
        split
        · next hfourth =>
          exact ⟨[second, third, fourth], rfl,
            Or.inr (utf8EncodeChar_four hwidth hsecond hthird hfourth)⟩
        · exact ⟨[second, third], rfl, Or.inl rfl⟩
      · exact ⟨[second], rfl, Or.inl rfl⟩
    · exact ⟨[], rfl, Or.inl rfl⟩
  · next second hwidth =>
    dsimp only
    split
    · exact ⟨[second], rfl, Or.inl rfl⟩
    · exact ⟨[], rfl, Or.inl rfl⟩
  · next second hwidth =>
    dsimp only
    split
    · exact ⟨[second], rfl, Or.inl rfl⟩
    · exact ⟨[], rfl, Or.inl rfl⟩
  · next second third hwidth =>
    dsimp only
    split
    · split
      · exact ⟨[second, third], rfl, Or.inl rfl⟩
      · exact ⟨[second], rfl, Or.inl rfl⟩
    · exact ⟨[], rfl, Or.inl rfl⟩
  · exact ⟨[], rfl, Or.inl rfl⟩

theorem length_lossyStep (b : UInt8) (rest : Bytes) : (lossyStep b rest).2.length ≤ rest.length := by
  obtain ⟨used, h, -⟩ := lossyStep_spec b rest
  have := congrArg List.length h
  simp only [List.length_cons, List.length_append] at this
  omega

theorem not_isContinuation_ascii (h : a.toNat < 128) : isContinuation a = false := by
  rw [Bool.eq_false_iff, ne_eq, isContinuation_iff]
  omega

theorem not_secondInRange_ascii (h : a.toNat < 128) : secondInRange b a = false := by
  rw [Bool.eq_false_iff]
  intro hs
  have := continuation_of_secondInRange hs
  omega

/-- An ASCII byte ends whatever stands before it. -/
theorem lossyStep_append_ascii (ha : a.toNat < 128) (b : UInt8) (s t : Bytes) :
    lossyStep b (s ++ a :: t) = ((lossyStep b s).1, (lossyStep b s).2 ++ a :: t) := by
  unfold lossyStep
  by_cases hascii : b < 0x80
  · rw [if_pos hascii, if_pos hascii]
  rw [if_neg hascii, if_neg hascii]
  have hcont := not_isContinuation_ascii ha
  have hrange := not_secondInRange_ascii (b := b) ha
  match hw : utf8Width b, s with
  | 2, [] => simp [hcont]
  | 2, x :: s =>
    simp only [List.cons_append]
    split <;> rfl
  | 3, [] => cases t <;> simp [hrange]
  | 3, [x] =>
    simp only [List.cons_append, List.nil_append, hcont]
    split <;> simp
  | 3, x :: y :: s =>
    simp only [List.cons_append]
    repeat' split
    all_goals rfl
  | 4, [] =>
    match t with
    | [] => simp [hrange]
    | [_] => simp [hrange]
    | _ :: _ :: _ => simp [hrange]
  | 4, [x] =>
    cases t with
    | nil =>
      simp only [List.cons_append, List.nil_append, hcont]
      split <;> simp
    | cons u t =>
      simp only [List.cons_append, List.nil_append, hcont]
      split <;> simp
  | 4, [x, y] =>
    simp only [List.cons_append, List.nil_append, hcont]
    repeat' split
    all_goals simp_all
  | 4, x :: y :: z :: s =>
    simp only [List.cons_append]
    repeat' split
    all_goals rfl
  | 0, s => simp
  | 1, s => simp
  | n + 5, s => simp

/-! ## A whole text -/

/-- The characters lossy decoding shows. -/
def lossy (b : Bytes) : List Char := lossyChars b.length b

theorem toList_fromUtf8Lossy (b : Bytes) : (fromUtf8Lossy b).toList = lossy b :=
  String.toList_ofList

theorem lossyChars_eq_lossy {fuel : Nat} (h : s.length ≤ fuel) : lossyChars fuel s = lossy s := by
  unfold lossy
  induction fuel using Nat.strongRecOn generalizing s with
  | _ fuel ih =>
    cases s with
    | nil => cases fuel <;> rfl
    | cons b rest =>
      cases fuel with
      | zero => simp at h
      | succ fuel =>
        have hle : rest.length ≤ fuel := by simpa using h
        have hstep := length_lossyStep b rest
        rw [List.length_cons, lossyChars, lossyChars, ih fuel (by omega) (by omega)]
        by_cases hlt : rest.length = fuel
        · rw [hlt, ih fuel (by omega) (by omega)]
        · rw [ih rest.length (by omega) hstep]

@[simp] theorem lossy_nil : lossy [] = [] := rfl

theorem lossy_cons (b : UInt8) (rest : Bytes) :
    lossy (b :: rest) = (lossyStep b rest).1 :: lossy (lossyStep b rest).2 := by
  rw [lossy, List.length_cons, lossyChars, lossyChars_eq_lossy (length_lossyStep b rest)]

/-- **An ASCII byte cuts the text**: what stands on either side is decoded alone. -/
theorem lossy_append_ascii (ha : a.toNat < 128) (s t : Bytes) :
    lossy (s ++ a :: t) = lossy s ++ Char.ofNat a.toNat :: lossy t := by
  induction hn : s.length using Nat.strongRecOn generalizing s with
  | _ n ih =>
    cases s with
    | nil => rw [List.nil_append, lossy_cons, lossyStep_ascii ha, lossy_nil, List.nil_append]
    | cons b s =>
      have hlen := length_lossyStep b s
      rw [List.length_cons] at hn
      rw [List.cons_append, lossy_cons, lossyStep_append_ascii ha, lossy_cons]
      rw [ih _ (by omega) _ rfl, List.cons_append]

theorem lossy_ascii_append (h : ∀ x ∈ s, x.toNat < 128) (t : Bytes) :
    lossy (s ++ t) = s.map (fun x => Char.ofNat x.toNat) ++ lossy t := by
  induction s with
  | nil => rfl
  | cons b s ih =>
    rw [List.cons_append, lossy_cons, lossyStep_ascii (h b List.mem_cons_self),
      ih fun x hx => h x (List.mem_cons_of_mem _ hx)]
    rfl

/-- A run of characters at the end of the text, the replacement character not among them, is
there in its own bytes. -/
theorem eq_append_utf8_of_lossy {front back : List Char} (h : lossy s = front ++ back)
    (hback : replacementChar ∉ back) : ∃ r, s = r ++ back.flatMap String.utf8EncodeChar := by
  induction front generalizing s with
  | nil =>
    refine ⟨[], ?_⟩
    rw [List.nil_append] at h ⊢
    induction back generalizing s with
    | nil =>
      cases s with
      | nil => rfl
      | cons b s => simp [lossy_cons] at h
    | cons c back ih =>
      cases s with
      | nil => simp at h
      | cons b s =>
        rw [lossy_cons] at h
        obtain ⟨hc, htail⟩ := List.cons.inj h
        obtain ⟨used, hused, hencode⟩ := lossyStep_spec b s
        have hne : (lossyStep b s).1 ≠ replacementChar := by
          rw [hc]
          exact fun heq => hback (heq ▸ List.mem_cons_self)
        have hbytes := hencode.resolve_left hne
        rw [List.flatMap_cons, ← hc, hbytes]
        rw [← ih (fun hm => hback (List.mem_cons_of_mem _ hm)) htail]
        exact hused
  | cons c front ih =>
    cases s with
    | nil => simp at h
    | cons b s =>
      rw [lossy_cons] at h
      obtain ⟨-, htail⟩ := List.cons.inj h
      obtain ⟨used, hused, -⟩ := lossyStep_spec b s
      obtain ⟨r, hr⟩ := ih htail
      refine ⟨b :: used ++ r, ?_⟩
      rw [List.append_assoc, ← hr]
      exact hused

/-- An ASCII character is shown only where its byte stands. -/
theorem mem_of_mem_lossy {n : Nat} (hn : n < 128) (h : Char.ofNat n ∈ lossy s) :
    UInt8.ofNat n ∈ s := by
  obtain ⟨front, back, hsplit⟩ := List.append_of_mem h
  have hval : (Char.ofNat n).val.toNat = n := toNat_val_ofNat (Or.inl (by omega))
  induction front generalizing s with
  | nil =>
    cases s with
    | nil => simp at h
    | cons b s =>
      rw [lossy_cons] at hsplit
      obtain ⟨hc, -⟩ := List.cons.inj hsplit
      obtain ⟨used, hused, hencode⟩ := lossyStep_spec b s
      have hne : (lossyStep b s).1 ≠ replacementChar := by
        rw [hc]
        intro heq
        have := congrArg (fun c : Char => c.val.toNat) heq
        rw [hval] at this
        have hr : replacementChar.val.toNat = 0xfffd := by decide
        omega
      have hbytes := hencode.resolve_left hne
      rw [hc, utf8EncodeChar_ascii (by rw [Char.toNat, hval]; exact hn), Char.toNat, hval] at hbytes
      exact (List.cons.inj hbytes).1 ▸ List.mem_cons_self
  | cons c front ih =>
    cases s with
    | nil => simp at h
    | cons b s =>
      rw [lossy_cons] at hsplit
      obtain ⟨-, htail⟩ := List.cons.inj hsplit
      obtain ⟨used, hused, -⟩ := lossyStep_spec b s
      have hmem := ih (by rw [htail]; simp) htail
      rw [hused]
      exact List.mem_append_right _ hmem

end Arlen.Lib
