import FilcAsync.Framework.Frames

/-!
# The pending flag

Over nonempty disjoint objects the flag in an object's header follows its
marks: it is set exactly when the object has a write mark, or has any mark and
is not read-only. Each of `mark_add`, `mark_make_write` and `mark_remove`
decides from the marks that remain whether to write the header.

* `FlagOk.step`: every elementary step of the mark table keeps the flag right,
  and leaves alone the header of a read-only object that is never written.
* `FlagOk.waitAccessOwner_eq_none`: with the flag clear, `wait_access_locked`
  has nothing to wait for unless the object is read-only and only being read.
* `pending_flag`: in every state that threads reach while they use the objects.
-/

namespace FilcAsync

variable {O : Objects}

section Marks

variable {s s' : Marks}

/-! ## What a lookup by range finds -/

/-- Every mark in a bucket covers an object, and is in the bucket of its lower bound. -/
def Marks.InObjects (O : Objects) (s : Marks) : Prop :=
  ∀ b, ∀ m ∈ s.buckets b,
    b = markBucket (s.mark m).lower ∧ O.isObject (s.mark m).lower (s.mark m).upper

/-- The object has a mark. -/
def Marks.HasMark (s : Marks) (l : ℕ) : Prop := ∃ m, s.Live m ∧ (s.mark m).lower = l

/-- The object has a write mark. -/
def Marks.HasWriter (s : Marks) (l : ℕ) : Prop :=
  ∃ m, s.Live m ∧ (s.mark m).lower = l ∧ (s.mark m).write = true

theorem Marks.HasWriter.hasMark {l : ℕ} (h : s.HasWriter l) : s.HasMark l := by
  obtain ⟨m, hm, hl, -⟩ := h
  exact ⟨m, hm, hl⟩

/-- In its bucket, the marks that overlap an object are the object's. -/
theorem Marks.InObjects.overlaps (hs : s.InObjects O) {p : Ptr} (hp : O.Has p) {m : MarkId} {b : ℕ}
    (hm : m ∈ s.buckets b) :
    (s.mark m).overlaps p.lower p.upper = true ↔ (s.mark m).lower = p.lower := by
  have hq : O.Has ⟨0, (s.mark m).lower, (s.mark m).upper⟩ := (hs b m hm).2
  have := hp.overlap_iff hq
  simp only at this
  unfold Mark.overlaps
  rw [Bool.and_eq_true, decide_eq_true_eq, decide_eq_true_eq, this, eq_comm]

/-- A lookup by range sees exactly the object's marks. -/
theorem Marks.InObjects.find?_isNone (hs : s.InObjects O) {p : Ptr} (hp : O.Has p)
    (q : MarkId → Bool) :
    ((s.buckets (markBucket p.lower)).find? fun m =>
      (s.mark m).overlaps p.lower p.upper && q m).isNone ↔
    ∀ m, s.Live m → (s.mark m).lower = p.lower → q m = false := by
  rw [Option.isNone_iff_eq_none, List.find?_eq_none]
  constructor
  · intro h m hm hl
    have hm' : m ∈ s.buckets (markBucket p.lower) := by rw [← hl]; exact hm
    have := h m hm'
    rw [Bool.and_eq_true, not_and, hs.overlaps hp hm'] at this
    simpa using this hl
  · intro h m hm hq
    rw [Bool.and_eq_true, hs.overlaps hp hm] at hq
    have hlive : s.Live m := by
      unfold Marks.Live
      rw [hq.1]
      exact hm
    rw [h m hlive hq.1] at hq
    cases hq.2

theorem Marks.InObjects.markFind (hs : s.InObjects O) {p : Ptr} (hp : O.Has p) :
    (markFind s p.lower p.upper).isNone ↔ ¬ s.HasMark p.lower := by
  have := hs.find?_isNone hp fun _ => true
  simp only [Bool.and_true, Bool.true_eq_false] at this
  unfold FilcAsync.markFind Marks.HasMark
  rw [this]
  push Not
  rfl

theorem Marks.InObjects.writerFind (hs : s.InObjects O) {p : Ptr} (hp : O.Has p) :
    (writerFind s p.lower p.upper).isNone ↔ ¬ s.HasWriter p.lower := by
  unfold FilcAsync.writerFind Marks.HasWriter
  rw [hs.find?_isNone hp fun m => (s.mark m).write]
  push Not
  simp only [Bool.not_eq_true]

/-! ## `zasync_set_pending` -/

/-- The flag `zasync_set_pending` is asked for. -/
def Headers.want (o : Headers) (l : ℕ) (pending : Pending) : Bool :=
  pending = .set || (pending = .readers && !o.readonly l)

@[simp] theorem zasyncSetPending_readonly (o : Headers) (buf : Option Ptr) (x : Pending) :
    (zasyncSetPending o buf x).readonly = o.readonly := by
  unfold zasyncSetPending
  split
  · rfl
  · simp only
    split_ifs <;> rfl

theorem zasyncSetPending_pending {o : Headers} {p : Ptr} {x : Pending} (hp : 0 < p.lower) (l : ℕ) :
    (zasyncSetPending o (some p) x).pending l =
      if l = p.lower then o.want p.lower x else o.pending l := by
  unfold zasyncSetPending
  simp only [hp.ne', if_false]
  change (if o.want p.lower x = o.pending p.lower then o else _).pending l = _
  split_ifs with h1 h2 h2
  · rw [h2, h1]
  · rfl
  · subst h2; simp [Headers.want]
  · simp [h2]

/-- A header is written only where the flag changes. -/
theorem zasyncSetPending_writes {o : Headers} {p : Ptr} {x : Pending} {l : ℕ}
    (h : l = p.lower → o.want p.lower x = o.pending p.lower) :
    (zasyncSetPending o (some p) x).writes l = o.writes l := by
  unfold zasyncSetPending
  simp only
  split_ifs with h1 h2
  · rfl
  · rfl
  · have hl : l ≠ p.lower := fun he => h2 (h he)
    simp [hl]

/-! ## The flag follows the marks -/

/-- The object's flag should be set. -/
def Marks.Flagged (s : Marks) (l : ℕ) : Prop :=
  s.HasWriter l ∨ (s.HasMark l ∧ s.headers.readonly l = false)

/-- The marks cover objects, and the headers agree with them. -/
structure FlagOk (O : Objects) (s : Marks) : Prop where
  ok : s.Ok
  isObject : ∀ {m}, s.Live m → O.isObject (s.mark m).lower (s.mark m).upper
  flag : ∀ l, s.headers.pending l = true ↔ s.Flagged l
  produced : ∀ {l}, s.HasWriter l → s.produced l = true
  /-- The header of a read-only object that never had a write mark is never written. -/
  unwritten : ∀ {l}, s.headers.readonly l = true → s.produced l = false → s.headers.writes l = 0

theorem FlagOk.empty (readonly : ℕ → Bool) : FlagOk O (Marks.empty readonly) where
  ok := .empty readonly
  isObject h := by simp [Marks.Live, Marks.empty] at h
  flag l := by simp [Marks.Flagged, Marks.HasWriter, Marks.HasMark, Marks.Live, Marks.empty]
  produced h := by simp [Marks.HasWriter, Marks.Live, Marks.empty] at h
  unwritten _ _ := rfl

theorem FlagOk.inObjects (h : FlagOk O s) : s.InObjects O := fun _ _ hm =>
  ⟨h.ok.bucket_lower hm, h.isObject (h.ok.live_of_mem hm)⟩

/-- The flag of a read-only object that never had a write mark is clear. -/
theorem FlagOk.pending_unwritten (h : FlagOk O s) {l : ℕ} (hr : s.headers.readonly l = true)
    (hp : s.produced l = false) : s.headers.pending l = false := by
  rw [← Bool.not_eq_true, h.flag]
  rintro (hw | ⟨-, hw⟩)
  · rw [h.produced hw] at hp; cases hp
  · rw [hr] at hw; cases hw

theorem MarkAdded.headers_write {buf : Ptr} {t : Option TaskId} {m : MarkId}
    (ha : MarkAdded s s' buf t true m) (hs : s.InObjects O) (hb : O.Has buf) :
    (s.HasWriter buf.lower ∧ s'.headers = s.headers) ∨
      (¬ s.HasWriter buf.lower ∧ s'.headers = zasyncSetPending s.headers (some buf) .set) := by
  rw [ha.headers, ← hs.writerFind hb]
  unfold markAddFlag
  simp only [if_true]
  split_ifs with hw
  · exact Or.inr ⟨hw, rfl⟩
  · exact Or.inl ⟨not_not.mp (mt (hs.writerFind hb).mpr hw), rfl⟩

theorem MarkAdded.headers_read {buf : Ptr} {t : Option TaskId} {m : MarkId}
    (ha : MarkAdded s s' buf t false m) (hs : s.InObjects O) (hb : O.Has buf) :
    (s.HasMark buf.lower ∧ s'.headers = s.headers) ∨
      (¬ s.HasMark buf.lower ∧ s'.headers = zasyncSetPending s.headers (some buf) .readers) := by
  rw [ha.headers, ← hs.markFind hb]
  unfold markAddFlag
  simp only [Bool.false_eq_true, if_false]
  split_ifs with hm
  · exact Or.inr ⟨hm, rfl⟩
  · exact Or.inl ⟨not_not.mp (mt (hs.markFind hb).mpr hm), rfl⟩

theorem FlagOk.add (h : FlagOk O s) {buf : Ptr} {t : Option TaskId} {write : Bool} {m : MarkId}
    (hb : O.Has buf) (ha : MarkAdded s s' buf t write m) : FlagOk O s' := by
  have hin := h.inObjects
  have hpos := O.lower_pos hb
  have lower_ne : ∀ x, s.Live x → s'.mark x = s.mark x := fun x hx =>
    ha.mark_ne x (by rintro rfl; exact ha.new hx)
  have hmark : ∀ l, s'.HasMark l ↔ s.HasMark l ∨ l = buf.lower := by
    intro l
    constructor
    · rintro ⟨x, hx, hl⟩
      rcases (ha.live x).mp hx with hx | rfl
      · exact Or.inl ⟨x, hx, by rw [← lower_ne x hx]; exact hl⟩
      · rw [ha.mark_new] at hl; exact Or.inr hl.symm
    · rintro (⟨x, hx, hl⟩ | rfl)
      · exact ⟨x, (ha.live x).mpr (Or.inl hx), by rw [lower_ne x hx]; exact hl⟩
      · exact ⟨m, (ha.live m).mpr (Or.inr rfl), by rw [ha.mark_new]⟩
  have hwriter : ∀ l, s'.HasWriter l ↔ s.HasWriter l ∨ (l = buf.lower ∧ write = true) := by
    intro l
    constructor
    · rintro ⟨x, hx, hl, hw⟩
      rcases (ha.live x).mp hx with hx | rfl
      · rw [lower_ne x hx] at hl hw; exact Or.inl ⟨x, hx, hl, hw⟩
      · rw [ha.mark_new] at hl hw; exact Or.inr ⟨hl.symm, hw⟩
    · rintro (⟨x, hx, hl, hw⟩ | ⟨rfl, hw⟩)
      · exact ⟨x, (ha.live x).mpr (Or.inl hx), by rw [lower_ne x hx]; exact hl,
          by rw [lower_ne x hx]; exact hw⟩
      · exact ⟨m, (ha.live m).mpr (Or.inr rfl), by rw [ha.mark_new], by rw [ha.mark_new]; exact hw⟩
  have hro : s'.headers.readonly = s.headers.readonly := by
    rw [ha.headers]; unfold markAddFlag; split_ifs <;> simp
  refine ⟨ha.ok, ?_, fun l => ?_, fun {l} hl => ?_, fun {l} hr hp => ?_⟩
  · intro x hx
    rcases (ha.live x).mp hx with hx | rfl
    · rw [lower_ne x hx]; exact h.isObject hx
    · rw [ha.mark_new]; exact hb
  · unfold Marks.Flagged
    rw [hmark, hwriter, hro]
    cases write with
    | true =>
      rcases ha.headers_write hin hb with ⟨hw, he⟩ | ⟨-, he⟩ <;> rw [he]
      · rw [h.flag]
        unfold Marks.Flagged
        by_cases hl : l = buf.lower
        · subst hl; simp [hw]
        · simp [hl]
      · rw [zasyncSetPending_pending hpos]
        split_ifs with hl
        · simp [Headers.want, hl]
        · rw [h.flag]; simp [hl, Marks.Flagged]
    | false =>
      rcases ha.headers_read hin hb with ⟨hm, he⟩ | ⟨hm, he⟩ <;> rw [he]
      · rw [h.flag]
        unfold Marks.Flagged
        by_cases hl : l = buf.lower
        · subst hl; simp [hm]
        · simp [hl]
      · rw [zasyncSetPending_pending hpos]
        split_ifs with hl
        · subst hl
          have hnw : ¬ s.HasWriter buf.lower := fun hw => hm hw.hasMark
          simp [Headers.want, hnw]
        · rw [h.flag]; simp [hl, Marks.Flagged]
  · rw [ha.produced]
    rcases (hwriter l).mp hl with hl | ⟨rfl, rfl⟩
    · have := h.produced hl
      split_ifs
      · by_cases he : l = buf.lower
        · subst he; simp
        · simpa [he] using this
      · exact this
    · simp
  · rw [hro] at hr
    rw [ha.produced] at hp
    cases write with
    | true =>
      have hl : l ≠ buf.lower := by rintro rfl; simp at hp
      simp only [if_true, Function.update_of_ne hl] at hp
      rw [← h.unwritten hr hp]
      rcases ha.headers_write hin hb with ⟨-, he⟩ | ⟨-, he⟩ <;> rw [he]
      exact zasyncSetPending_writes fun he => absurd he hl
    | false =>
      simp only [Bool.false_eq_true, if_false] at hp
      rw [← h.unwritten hr hp]
      have hclear := h.pending_unwritten hr hp
      rcases ha.headers_read hin hb with ⟨-, he⟩ | ⟨-, he⟩ <;> rw [he]
      exact zasyncSetPending_writes fun he => by subst he; simp [Headers.want, hclear, hr]

theorem FlagOk.upgrade (h : FlagOk O s) {m : MarkId} (hm : s.Live m)
    (hw : (s.mark m).write = false) (hu : MarkUpgraded s s' m) : FlagOk O s' := by
  have hin := h.inObjects
  obtain ⟨p, hbuf, hpl, hpu⟩ := h.ok.live_buf hm
  have hb : O.Has p := by unfold Objects.Has; rw [hpl, hpu]; exact h.isObject hm
  have hpos := O.lower_pos hb
  have mark_eq : ∀ x, (s'.mark x).lower = (s.mark x).lower ∧ (s'.mark x).upper = (s.mark x).upper ∧
      ((s'.mark x).write = true ↔ (s.mark x).write = true ∨ x = m) := by
    intro x
    by_cases hx : x = m
    · subst hx; simp [hu.mark_self]
    · simp [hu.mark_ne x hx, hx]
  have hmark : ∀ l, s'.HasMark l ↔ s.HasMark l := by
    intro l; unfold Marks.HasMark; simp only [hu.live, (mark_eq _).1]
  have hwriter : ∀ l, s'.HasWriter l ↔ s.HasWriter l ∨ l = p.lower := by
    intro l
    unfold Marks.HasWriter
    simp only [hu.live, (mark_eq _).1, (mark_eq _).2.2]
    constructor
    · rintro ⟨x, hx, hl, hw | rfl⟩
      · exact Or.inl ⟨x, hx, hl, hw⟩
      · exact Or.inr (hl.symm.trans hpl.symm)
    · rintro (⟨x, hx, hl, hw⟩ | rfl)
      · exact ⟨x, hx, hl, Or.inl hw⟩
      · exact ⟨m, hm, hpl.symm, Or.inr rfl⟩
  have hro : s'.headers.readonly = s.headers.readonly := by
    rw [hu.headers]; split_ifs <;> simp
  refine ⟨hu.ok, ?_, fun l => ?_, fun {l} hl => ?_, fun {l} hr hp => ?_⟩
  · intro x hx
    rw [(mark_eq x).1, (mark_eq x).2.1]
    exact h.isObject ((hu.live x).mp hx)
  · unfold Marks.Flagged
    rw [hmark, hwriter, hro, hu.headers, ← hpl, ← hpu, hbuf]
    have hfind := hin.writerFind hb
    split_ifs with hnone
    · rw [zasyncSetPending_pending hpos]
      split_ifs with hl
      · simp [Headers.want, hl]
      · rw [h.flag]; simp [hl, Marks.Flagged]
    · have hsome := not_not.mp (mt hfind.mpr hnone)
      rw [h.flag]
      unfold Marks.Flagged
      by_cases hl : l = p.lower
      · subst hl; simp [hsome]
      · simp [hl]
  · rw [hu.produced, ← hpl]
    by_cases hlp : l = p.lower
    · subst hlp; simp
    · rw [Function.update_of_ne hlp]
      exact h.produced (((hwriter l).mp hl).resolve_right hlp)
  · rw [hro] at hr
    rw [hu.produced, ← hpl] at hp
    have hlp : l ≠ p.lower := by rintro rfl; simp at hp
    rw [Function.update_of_ne hlp] at hp
    rw [hu.headers, ← h.unwritten hr hp, hbuf]
    split_ifs
    · exact zasyncSetPending_writes fun he => absurd he hlp
    · rfl

theorem FlagOk.remove (h : FlagOk O s) {m : MarkId} (hr : MarkRemoved s s' m) : FlagOk O s' := by
  have hm := hr.was
  obtain ⟨p, hbuf, hpl, hpu⟩ := h.ok.live_buf hm
  have hb : O.Has p := by unfold Objects.Has; rw [hpl, hpu]; exact h.isObject hm
  have hpos := O.lower_pos hb
  obtain ⟨s₁, hu, hhead⟩ := hr.headers
  -- the lookups of `mark_remove` see the marks that remain
  have hlive₁ : ∀ x, s₁.Live x ↔ s.Live x ∧ x ≠ m := by
    intro x
    unfold Marks.Live
    rw [hu.mark]
    exact hu.mem_bucket h.ok
  have hin₁ : s₁.InObjects O := by
    intro b x hx
    rw [hu.mark]
    exact h.inObjects b x ((hu.mem_bucket h.ok).mp hx).1
  have mark_eq : ∀ x, s'.Live x → s'.mark x = s.mark x := fun x hx =>
    hr.mark_ne x ((hr.live x).mp hx).2
  have hmark : ∀ l, s'.HasMark l ↔ s₁.HasMark l := by
    intro l
    unfold Marks.HasMark
    refine exists_congr fun x => ?_
    rw [hlive₁, hu.mark, ← hr.live]
    exact and_congr_right fun hx => by rw [mark_eq x hx]
  have hwriter : ∀ l, s'.HasWriter l ↔ s₁.HasWriter l := by
    intro l
    unfold Marks.HasWriter
    refine exists_congr fun x => ?_
    rw [hlive₁, hu.mark, ← hr.live]
    exact and_congr_right fun hx => by rw [mark_eq x hx]
  have hmark_s : ∀ l, s.HasMark l ↔ s₁.HasMark l ∨ l = p.lower := by
    intro l
    unfold Marks.HasMark
    simp only [hlive₁, hu.mark]
    constructor
    · rintro ⟨x, hx, hl⟩
      by_cases hxm : x = m
      · subst hxm; exact Or.inr (hl.symm.trans hpl.symm)
      · exact Or.inl ⟨x, ⟨hx, hxm⟩, hl⟩
    · rintro (⟨x, hx, hl⟩ | rfl)
      · exact ⟨x, hx.1, hl⟩
      · exact ⟨m, hm, hpl.symm⟩
  have hwriter_s : ∀ l, s.HasWriter l ↔
      s₁.HasWriter l ∨ (l = p.lower ∧ (s.mark m).write = true) := by
    intro l
    unfold Marks.HasWriter
    simp only [hlive₁, hu.mark]
    constructor
    · rintro ⟨x, hx, hl, hw⟩
      by_cases hxm : x = m
      · subst hxm; exact Or.inr ⟨hl.symm.trans hpl.symm, hw⟩
      · exact Or.inl ⟨x, ⟨hx, hxm⟩, hl, hw⟩
    · rintro (⟨x, hx, hl, hw⟩ | ⟨rfl, hw⟩)
      · exact ⟨x, hx.1, hl, hw⟩
      · exact ⟨m, hm, hpl.symm, hw⟩
  have hflag : (¬ s₁.HasMark p.lower ∧ s'.headers = zasyncSetPending s.headers (some p) .clear) ∨
      (s₁.HasMark p.lower ∧ ¬ s₁.HasWriter p.lower ∧ (s.mark m).write = true ∧
        s'.headers = zasyncSetPending s.headers (some p) .readers) ∨
      (s₁.HasMark p.lower ∧ ((s.mark m).write = true → s₁.HasWriter p.lower) ∧
        s'.headers = s.headers) := by
    have h1 := hin₁.markFind hb
    have h2 := hin₁.writerFind hb
    rw [hhead]
    unfold markRemoveFlag
    simp only [hu.mark, hu.headers, hbuf, ← hpl, ← hpu, Bool.and_eq_true]
    split_ifs with h3 h4
    · exact Or.inl ⟨h1.mp h3, rfl⟩
    · exact Or.inr (Or.inl ⟨not_not.mp (mt h1.mpr h3), h2.mp h4.2, h4.1, rfl⟩)
    · exact Or.inr (Or.inr ⟨not_not.mp (mt h1.mpr h3),
        fun hw => not_not.mp fun hn => h4 ⟨hw, h2.mpr hn⟩, rfl⟩)
  have hro : s'.headers.readonly = s.headers.readonly := by
    rcases hflag with ⟨-, he⟩ | ⟨-, -, -, he⟩ | ⟨-, -, he⟩ <;> simp [he]
  refine ⟨hr.ok, ?_, fun l => ?_, fun {l} hl => ?_, fun {l} hro' hp => ?_⟩
  · intro x hx
    rw [mark_eq x hx]
    exact h.isObject ((hr.live x).mp hx).1
  · have hold := h.flag l
    unfold Marks.Flagged at hold ⊢
    rw [hmark_s, hwriter_s] at hold
    rw [hmark, hwriter, hro]
    rcases hflag with ⟨h1, he⟩ | ⟨h1, h2, hw, he⟩ | ⟨h1, h2, he⟩ <;> rw [he]
    · rw [zasyncSetPending_pending hpos]
      split_ifs with hl
      · subst hl
        have : ¬ s₁.HasWriter p.lower := fun hw => h1 hw.hasMark
        simp [Headers.want, h1, this]
      · rw [hold]; simp [hl]
    · rw [zasyncSetPending_pending hpos]
      split_ifs with hl
      · subst hl; simp [Headers.want, h1, h2]
      · rw [hold]; simp [hl]
    · rw [hold]
      by_cases hl : l = p.lower
      · subst hl
        have : (s₁.HasWriter p.lower ∨ (s.mark m).write = true) ↔ s₁.HasWriter p.lower :=
          or_iff_left_of_imp h2
        simp [h1, this]
      · simp [hl]
  · rw [hr.produced]
    exact h.produced ((hwriter_s l).mpr (Or.inl ((hwriter l).mp hl)))
  · rw [hro] at hro'
    rw [hr.produced] at hp
    rw [← h.unwritten hro' hp]
    have hclear := h.pending_unwritten hro' hp
    rcases hflag with ⟨-, he⟩ | ⟨-, -, -, he⟩ | ⟨-, -, he⟩ <;> rw [he]
    · exact zasyncSetPending_writes fun hl => by subst hl; simp [Headers.want, hclear]
    · exact zasyncSetPending_writes fun hl => by subst hl; simp [Headers.want, hclear, hro']

/-- Every elementary step on the objects keeps the flag right. -/
theorem FlagOk.step (h : FlagOk O s) (hst : MarkStep (fun _ buf _ _ => O.Has buf) s s') :
    FlagOk O s' := by
  cases hst with
  | add hb ha => exact h.add hb ha
  | upgrade _ hm _ hw hu => exact h.upgrade hm hw hu
  | remove hr => exact h.remove hr

theorem FlagOk.steps (h : FlagOk O s) (hst : MarkSteps (fun _ buf _ _ => O.Has buf) s s') :
    FlagOk O s' :=
  hst.invariant h FlagOk.step

/-! ## With the flag clear -/

/-- Where the inline test finds the flag clear, an access does not wait, or the
    object is read-only and only being read. -/
theorem FlagOk.waitAccessOwner_eq_none (h : FlagOk O s) {p : Ptr} (hp : O.Has p)
    (hclear : s.headers.pending p.lower = false) (active : List TaskId) :
    waitAccessOwner s active (waitAccessOwn s active p) p = none ∨
      (s.headers.readonly p.lower = true ∧ s.HasMark p.lower ∧ ¬ s.HasWriter p.lower) := by
  have hnf : ¬ s.Flagged p.lower := by rw [← h.flag, hclear]; decide
  unfold Marks.Flagged at hnf
  rw [not_or, not_and, Bool.not_eq_false] at hnf
  by_cases hm : s.HasMark p.lower
  · exact Or.inr ⟨hnf.2 hm, hm, hnf.1⟩
  · left
    unfold waitAccessOwner
    rw [List.find?_eq_none.mpr, Option.bind_none]
    intro m hmem hq
    simp only [Bool.and_eq_true] at hq
    have hl := (h.inObjects.overlaps hp hmem).mp hq.1.1.1
    exact hm ⟨m, h.ok.live_of_mem hmem, hl⟩

/-! ## Over any run -/

/-- What is read-only stays so. -/
theorem MarkStep.readonly {A : Marks → Ptr → Option TaskId → Bool → Prop} (h : MarkStep A s s') :
    s'.headers.readonly = s.headers.readonly := by
  cases h with
  | add _ ha =>
    rw [ha.headers]; unfold markAddFlag
    split_ifs <;> simp
  | upgrade _ _ _ _ hu => rw [hu.headers]; split_ifs <;> simp
  | remove hr =>
    obtain ⟨s₁, hu, he⟩ := hr.headers
    rw [he]; unfold markRemoveFlag
    simp only
    split_ifs <;> simp [hu.headers]

end Marks

/-- The buffers a call is given. -/
def Op.buffers : Op → List Ptr
  | .markPending _ buf => [buf]
  | .markShared _ buf => [buf]
  | .markInput _ buf => [buf]
  | .waitBuffer _ buf => [buf]
  | .waitAccess buf => [buf]
  | .resolveAccess buf => [buf]
  | .markResolved buf => [buf]
  | .resolveBuffer _ buf => [buf]
  | .waitAll _ token buffers => token :: buffers.filterMap id
  | _ => []

/-- The action gives the framework objects only. -/
def Act.Uses (O : Objects) : Act → Prop
  | .call op => ∀ p ∈ op.buffers, O.Has p
  | _ => True

/-- The object of a `filc_async_mark_pending` in progress. -/
def Frame.Uses (O : Objects) : Frame → Prop
  | .markPending _ buf _ => O.Has buf
  | _ => True

theorem MarkGuard.has {fw : Fw} {th : Thread} {a : Act} {m : Marks} {buf : Ptr}
    {t : Option TaskId} {write : Bool} (h : MarkGuard fw th a m buf t write) (ha : a.Uses O)
    (hth : ∀ f ∈ th.frames, f.Uses O) : O.Has buf := by
  cases h with
  | pending => exact ha buf (by simp [Op.buffers])
  | @pendingAgain _ _ _ u fs hf =>
    have := hth (.markPending t buf u) (by rw [hf]; exact List.mem_cons_self)
    exact this
  | shared => exact ha buf (by simp [Op.buffers])
  | input => exact ha buf (by simp [Op.buffers])
  | group => exact ha buf (by simp [Op.buffers])

theorem NewFrame.uses {fw : Fw} {th : Thread} {a : Act} {f : Frame} (h : NewFrame fw th a f)
    (ha : a.Uses O) (hth : ∀ f ∈ th.frames, f.Uses O) : f.Uses O := by
  cases h with
  | @markPending t buf u _ => exact ha buf (by simp [Op.buffers])
  | @markAgain t buf u u' fs hf =>
    have := hth (.markPending t buf u) (by rw [hf]; exact List.mem_cons_self)
    exact this
  | _ => trivial

/-- The machine's invariant while its threads use objects of `O`. -/
structure St.FlagOk (O : Objects) (readonly : ℕ → Bool) (s : St) : Prop where
  ok : s.Ok
  flag : FilcAsync.FlagOk O s.fw.marks
  readonly : s.fw.marks.headers.readonly = readonly
  frames : ∀ i, ∀ f ∈ (s.thread i).frames, f.Uses O

theorem St.FlagOk.step {readonly : ℕ → Bool} {s s' : St} {l : ThreadId × Act}
    (hs : s.FlagOk O readonly) (hl : l.2.Uses O) (h : s.step l = some s') :
    s'.FlagOk O readonly := by
  have hm := (hs.ok.step_fw h).markSteps hs.ok.fw
  obtain ⟨th', hth, he⟩ := St.step_eq_some h
  refine ⟨hs.ok.step h, ?_, ?_, fun i f hf => ?_⟩
  · exact hs.flag.steps (hm.mono fun _ _ _ _ hg => hg.has hl (hs.frames l.1))
  · exact hm.invariant hs.readonly fun hr hst => hst.readonly.trans hr
  · rw [he] at hf
    by_cases hi : i = l.1
    · subst hi
      rw [Function.update_self] at hf
      rcases threadStep_frames hth f hf with hf | hf
      · exact hs.frames _ f hf
      · exact hf.uses hl (hs.frames _)
    · rw [Function.update_of_ne hi] at hf
      exact hs.frames i f hf

/-- While threads use nonempty disjoint objects, an object's flag is set exactly
    when it has a write mark, or any mark and is not read-only. Hence where the
    flag is clear, an access does not wait or the object is read-only and only
    being read; and the header of a read-only object that never had a write mark
    is never written. -/
theorem pending_flag {O : Objects} {readonly : ℕ → Bool} {s : St}
    (hs : (framework readonly).ReachableBy (fun _ l => l.2.Uses O) s) :
    (∀ l, s.fw.marks.headers.pending l = true ↔
      s.fw.marks.HasWriter l ∨ (s.fw.marks.HasMark l ∧ readonly l = false)) ∧
    (∀ p, O.Has p → s.fw.marks.headers.pending p.lower = false → ∀ i,
      waitAccessContinue s.fw (s.thread i) (waitAccessOwn s.fw.marks (s.thread i).active p) p =
          (s.fw, s.thread i) ∨
        (readonly p.lower = true ∧ s.fw.marks.HasMark p.lower ∧ ¬ s.fw.marks.HasWriter p.lower)) ∧
    (∀ l, readonly l = true → s.fw.marks.produced l = false → s.fw.marks.headers.writes l = 0) := by
  have hok : s.FlagOk O readonly :=
    hs.invariant ⟨.init readonly, .empty readonly, rfl, by simp [framework]⟩
      fun _ _ _ hs hl hst => hs.step hl hst
  refine ⟨fun l => ?_, fun p hp hclear i => ?_, fun l hr hp => ?_⟩
  · rw [hok.flag.flag l, Marks.Flagged, hok.readonly]
  · rw [← hok.readonly]
    refine (hok.flag.waitAccessOwner_eq_none hp hclear (s.thread i).active).imp_left fun hn => ?_
    unfold waitAccessContinue
    rw [hn]
  · exact hok.flag.unwritten (by rw [hok.readonly]; exact hr) hp

/-- One object, from address 16 to 32. -/
def oneObject : Objects where
  isObject l u := l = 16 ∧ u = 32
  nonempty h := by omega
  lower_pos h := by omega
  disjoint h h' := by omega

instance (l u : ℕ) : Decidable (oneObject.isObject l u) := inferInstanceAs (Decidable (_ ∧ _))

instance (a : Act) : Decidable (a.Uses oneObject) :=
  match a with
  | .call op => inferInstanceAs (Decidable (∀ p ∈ op.buffers, oneObject.isObject p.lower p.upper))
  | .resume => inferInstanceAs (Decidable True)
  | .ret => inferInstanceAs (Decidable True)

/-- A reader and then, once it has completed, a producer mark a read-only object:
    the flag is set by the producer only. -/
theorem pending_flag_reader_then_producer :
    ∃ s, (framework fun _ => true).ReachableBy (fun _ l => l.2.Uses oneObject) s ∧
      s.fw.marks.headers.pending 16 = true ∧
      (s.fw.marks.HasWriter 16 ∨ (s.fw.marks.HasMark 16 ∧ true = false)) := by
  have hr := ((framework fun _ => true).restrict fun _ l => l.2.Uses oneObject).reachable_get
    [(0, .call (.begin 1 0)), (0, .call (.markInput 1 ⟨20, 16, 32⟩)), (0, .call (.complete 1 0)),
      (0, .call (.begin 2 0)), (0, .call (.markPending (some 2) ⟨16, 16, 32⟩))]
    (by decide +kernel)
  have h := pending_flag hr.of_restrict
  exact ⟨_, hr.of_restrict, by decide +kernel, (h.1 16).mp (by decide +kernel)⟩

end FilcAsync
