import Mathlib.Data.List.DropRight
import Mathlib.Data.List.TakeWhile
import Mathlib.Data.Nat.Digits.Defs
import Mathlib.Tactic.Ring
import FilcAsync.Rpc.Request

/-!
# The reply of the rpc runtime

What a reply says, apart from how `parse_reply` of `runtime/rpc/rpc_runtime.c` scans
it: the bytes up to the first NUL begin with the line `VALUE n`.

* `scanLong_eq_some` — `%ld` reads blanks, a sign and all the digits there are.
* `parseReply_eq_iff` — `parse_reply` returns the value of that line, and `-EPROTO`
  if there is none.
-/

namespace FilcAsync

/-! ## Value lines -/

/-- The number that decimal digits write. -/
def digitsValue (digits : Bytes) : ℕ :=
  Nat.ofDigits 10 (digits.reverse.map fun d => d.toNat - 48)

/-- The nearest `long`. -/
def toLong (n : ℤ) : ℤ := max (-2 ^ 63) (min (2 ^ 63 - 1) n)

/-- The sign of a number, and what it multiplies by. -/
inductive SignOf : Bytes → ℤ → Prop
  | none : SignOf [] 1
  | plus : SignOf [43] 1
  | minus : SignOf [45] (-1)

/-- The bytes are blanks and a number, whose `long` is `v`. -/
def Numeral (s : Bytes) (v : ℤ) : Prop :=
  ∃ blanks sign unit digits, s = blanks ++ (sign ++ digits) ∧
    (∀ b ∈ blanks, isSpace b = true) ∧ SignOf sign unit ∧ digits ≠ [] ∧
    (∀ d ∈ digits, isDigit d = true) ∧ v = toLong (unit * digitsValue digits)

/-- The string begins with the line `VALUE n`. -/
def ValueLine (s : Bytes) (v : ℤ) : Prop :=
  ∃ number rest, s = bytes "VALUE" ++ (number ++ 10 :: rest) ∧ Numeral number v

/-- What the request finishes with when the socket has sent this reply and ends: the
    value of the line, or `-EPROTO` if there is no such line. -/
def ReplyValue (reply : Bytes) (v : ℤ) : Prop :=
  ValueLine (reply.takeWhile (· ≠ 0)) v ∨
    (∀ w, ¬ ValueLine (reply.takeWhile (· ≠ 0)) w) ∧ v = -eproto

/-! ## Scanning a number -/

theorem not_isSpace_of_isDigit {b : UInt8} (h : isDigit b = true) : isSpace b = false := by
  unfold isDigit at h
  unfold isSpace
  simp only [Bool.and_eq_true, decide_eq_true_eq] at h
  simp only [Bool.or_eq_false_iff, Bool.and_eq_false_iff, decide_eq_false_iff_not]
  rw [UInt8.le_iff_toNat_le, UInt8.le_iff_toNat_le] at h
  rw [UInt8.le_iff_toNat_le, UInt8.le_iff_toNat_le, ← UInt8.toNat_inj]
  simp only [UInt8.reduceToNat] at h ⊢
  omega

/-- One more digit at the end. -/
theorem digitsValue_append_single (digits : Bytes) (d : UInt8) :
    digitsValue (digits ++ [d]) = 10 * digitsValue digits + (d.toNat - 48) := by
  unfold digitsValue
  rw [List.reverse_append, List.reverse_singleton, List.singleton_append, List.map_cons,
    Nat.ofDigits_cons]
  omega

/-- The loop over the digits computes their number. -/
theorem foldl_digits {digits : Bytes} (h : ∀ d ∈ digits, isDigit d = true) :
    digits.foldl (fun (n : ℤ) d => 10 * n + (d.toNat - 48)) 0 = digitsValue digits := by
  induction digits using List.reverseRecOn with
  | nil => rfl
  | append_singleton digits d ih =>
    have hd := h d List.mem_concat_self
    unfold isDigit at hd
    rw [Bool.and_eq_true, decide_eq_true_eq, UInt8.le_iff_toNat_le] at hd
    have hlow : 48 ≤ d.toNat := hd.1
    rw [List.foldl_append, ih fun e he => h e (List.mem_append_left _ he),
      digitsValue_append_single, List.foldl_cons, List.foldl_nil]
    push_cast [hlow]
    ring

/-- The bytes up to the first that does not satisfy `p`. -/
theorem takeWhile_dropWhile_unique {p : UInt8 → Bool} {s front rest : Bytes}
    (hs : s = front ++ rest) (hf : ∀ b ∈ front, p b = true) (hr : ∀ b ∈ rest.head?, p b = false) :
    s.takeWhile p = front ∧ s.dropWhile p = rest := by
  subst hs
  rw [List.takeWhile_append_of_pos hf, List.dropWhile_append_of_pos hf]
  cases rest with
  | nil => exact ⟨List.append_nil _, rfl⟩
  | cons b rest =>
    have hb : ¬ p b = true := Bool.eq_false_iff.mp (hr b rfl)
    rw [List.takeWhile_cons_of_neg hb, List.dropWhile_cons_of_neg hb]
    exact ⟨List.append_nil _, rfl⟩

theorem head?_dropWhile_not {p : UInt8 → Bool} {s : Bytes} :
    ∀ b ∈ (s.dropWhile p).head?, p b = false := by
  induction s with
  | nil => exact fun _ hb => absurd hb (Option.not_mem_none _)
  | cons b s ih =>
    cases hb : p b with
    | true => rwa [List.dropWhile_cons_of_pos hb]
    | false =>
      rw [List.dropWhile_cons_of_neg (Bool.eq_false_iff.mp hb)]
      rintro c hc
      cases hc
      exact hb

/-- Nothing before the digits is left to read. -/
def Unsigned (s : Bytes) : Prop :=
  ∀ b ∈ s.head?, isSpace b = false ∧ b ≠ 45 ∧ b ≠ 43

theorem scanLong_signed {blanks sign s : Bytes} {unit : ℤ} (hb : ∀ b ∈ blanks, isSpace b = true)
    (hsign : SignOf sign unit) (hs : sign = [] → Unsigned s) :
    scanLong (blanks ++ (sign ++ s)) =
      if s.takeWhile isDigit = [] then none
      else some (toLong (unit * digitsValue (s.takeWhile isDigit)), s.dropWhile isDigit) := by
  have hdigits : ∀ d ∈ s.takeWhile isDigit, isDigit d = true := fun d hd =>
    List.mem_takeWhile_imp hd
  have hhead : ∀ b ∈ (sign ++ s).head?, isSpace b = false := by
    cases hsign with
    | none => exact fun b hb => (hs rfl b hb).1
    | plus => rintro _ ⟨⟩; rfl
    | minus => rintro _ ⟨⟩; rfl
  have hdrop : (blanks ++ (sign ++ s)).dropWhile isSpace = sign ++ s :=
    (takeWhile_dropWhile_unique rfl hb hhead).2
  unfold scanLong
  rw [hdrop]
  cases hsign with
  | none =>
    have hs := hs rfl
    rw [List.nil_append]
    dsimp only
    split
    · exact absurd rfl (hs _ rfl).2.1
    · exact absurd rfl (hs _ rfl).2.2
    · rw [foldl_digits hdigits, one_mul]
      rfl
  | plus =>
    rw [one_mul, ← foldl_digits hdigits]
    rfl
  | minus =>
    rw [neg_one_mul, ← foldl_digits hdigits]
    rfl

/-- Any bytes are blanks, a sign or none, and the rest. -/
theorem exists_signed (s : Bytes) :
    ∃ blanks sign unit u, s = blanks ++ (sign ++ u) ∧ (∀ b ∈ blanks, isSpace b = true) ∧
      SignOf sign unit ∧ (sign = [] → Unsigned u) := by
  have hs : s = s.takeWhile isSpace ++ s.dropWhile isSpace := List.takeWhile_append_dropWhile.symm
  have hb : ∀ b ∈ s.takeWhile isSpace, isSpace b = true := fun b hb => List.mem_takeWhile_imp hb
  have hhead := head?_dropWhile_not (p := isSpace) (s := s)
  generalize s.dropWhile isSpace = u at hs hhead
  by_cases hminus : u.head? = some 45
  · obtain ⟨u, rfl⟩ := List.head?_eq_some_iff.mp hminus
    exact ⟨_, [45], -1, u, hs, hb, .minus, fun h => absurd h (List.cons_ne_nil _ _)⟩
  · by_cases hplus : u.head? = some 43
    · obtain ⟨u, rfl⟩ := List.head?_eq_some_iff.mp hplus
      exact ⟨_, [43], 1, u, hs, hb, .plus, fun h => absurd h (List.cons_ne_nil _ _)⟩
    · refine ⟨_, [], 1, u, hs, hb, .none, fun _ b hbu => ⟨hhead b hbu, ?_, ?_⟩⟩
      · rintro rfl
        exact hminus hbu
      · rintro rfl
        exact hplus hbu

/-- `%ld` reads a numeral, up to the first byte that is not a digit. -/
theorem scanLong_eq_some {s rest : Bytes} {v : ℤ} :
    scanLong s = some (v, rest) ↔
      (∃ number, s = number ++ rest ∧ Numeral number v) ∧
        ∀ b ∈ rest.head?, isDigit b = false := by
  constructor
  · intro h
    obtain ⟨blanks, sign, unit, u, rfl, hb, hsign, hu⟩ := exists_signed s
    rw [scanLong_signed hb hsign hu] at h
    obtain ⟨hne, he⟩ := Option.ite_none_left_eq_some.mp h
    cases he
    refine ⟨⟨blanks ++ (sign ++ u.takeWhile isDigit), ?_, blanks, sign, unit, _, rfl, hb, hsign,
      hne, fun d hd => List.mem_takeWhile_imp hd, rfl⟩, head?_dropWhile_not⟩
    rw [List.append_assoc, List.append_assoc, List.takeWhile_append_dropWhile]
  · rintro ⟨⟨_, rfl, blanks, sign, unit, digits, rfl, hb, hsign, hne, hd, rfl⟩, hrest⟩
    obtain ⟨htake, hdrop⟩ := takeWhile_dropWhile_unique (s := digits ++ rest) rfl hd hrest
    have hunsigned : Unsigned (digits ++ rest) := by
      obtain ⟨d, digits, rfl⟩ := List.exists_cons_of_ne_nil hne
      rintro _ ⟨⟩
      have hd := hd d List.mem_cons_self
      refine ⟨not_isSpace_of_isDigit hd, ?_, ?_⟩
      · rintro rfl
        cases hd
      · rintro rfl
        cases hd
    rw [List.append_assoc, List.append_assoc, scanLong_signed hb hsign fun _ => hunsigned, htake,
      hdrop, if_neg hne]

theorem scanLong_dropWhile (s : Bytes) : scanLong (s.dropWhile isSpace) = scanLong s := by
  unfold scanLong
  rw [List.dropWhile_idempotent]

/-! ## Main result -/

theorem valueLine_iff {s : Bytes} {v : ℤ} :
    ValueLine s v ↔ bytes "VALUE" <+: s ∧
      ∃ rest, scanLong ((s.drop 5).dropWhile isSpace) = some (v, 10 :: rest) := by
  rw [scanLong_dropWhile]
  have hdrop : ∀ u, (bytes "VALUE" ++ u).drop 5 = u := fun u =>
    List.drop_left' (by decide +kernel)
  have hline : ∀ rest : Bytes, ∀ b ∈ (10 :: rest).head?, isDigit b = false := by
    rintro rest _ ⟨⟩
    rfl
  constructor
  · rintro ⟨number, rest, rfl, hnumber⟩
    rw [hdrop]
    exact ⟨List.prefix_append _ _, rest, scanLong_eq_some.mpr ⟨⟨number, rfl, hnumber⟩, hline rest⟩⟩
  · rintro ⟨⟨u, rfl⟩, rest, hscan⟩
    rw [hdrop] at hscan
    obtain ⟨⟨number, hu, hnumber⟩, -⟩ := scanLong_eq_some.mp hscan
    exact ⟨number, rest, by rw [hu], hnumber⟩

/-- `parse_reply` returns the value of the reply's line. -/
theorem parseReply_eq_iff {reply : Bytes} {v : ℤ} : parseReply reply = v ↔ ReplyValue reply v := by
  have hvalue : ∀ w, ValueLine (reply.takeWhile (· ≠ 0)) w → parseReply reply = w := by
    intro w hw
    obtain ⟨hvalue, rest, hscan⟩ := valueLine_iff.mp hw
    unfold parseReply
    dsimp only
    rw [if_pos hvalue, hscan]
    rfl
  have hnone : (∀ w, ¬ ValueLine (reply.takeWhile (· ≠ 0)) w) → parseReply reply = -eproto := by
    intro hnot
    unfold parseReply
    dsimp only
    split_ifs with hvalue
    · split
      · next value rest hscan => exact absurd (valueLine_iff.mpr ⟨hvalue, rest, hscan⟩) (hnot value)
      · rfl
    · rfl
  constructor
  · rintro rfl
    by_cases hline : ∃ w, ValueLine (reply.takeWhile (· ≠ 0)) w
    · obtain ⟨w, hw⟩ := hline
      exact Or.inl (hvalue w hw ▸ hw)
    · exact Or.inr ⟨not_exists.mp hline, hnone (not_exists.mp hline)⟩
  · rintro (hline | ⟨hnot, rfl⟩)
    · exact hvalue v hline
    · exact hnone hnot

/-- The line of a reply that the server ends after it; without the line break, or with
    another word, there is no value. -/
example : parseReply (bytes "VALUE -42\n") = -42 ∧ parseReply (bytes "VALUE 7") = -71 ∧
    parseReply (bytes "ERROR\n") = -71 := by decide +kernel

end FilcAsync
