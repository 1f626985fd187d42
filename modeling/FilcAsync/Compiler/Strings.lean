import Mathlib.Data.List.Forall2
import FilcAsync.Compiler.Options

/-!
# Option strings in the module

`FilAsyncPass::emitOpts` (`compiler/pass/FilAsync.cpp`) points each entry of the
options array to a constant string global of the module, and makes one where none
matches. Its test drops a final NUL "if there is one", so it also matches a byte
array without a NUL, which a runtime reads past the end.

* `options_unterminated`: such an array comes first.
* `options_reach_runtime`: the array is what the runtime expects exactly if no
  option has one.
-/

namespace FilcAsync

/-! ## Globals -/

/-- A constant: an `i8` array that is not all zero, an all-zero value of some size,
    an array of pointers to globals (`none` for null), or anything else. -/
inductive Init
  | string (s : Bytes)
  | zero (size : ℕ)
  | pointers (elems : List (Option ℕ))
  | other
  deriving DecidableEq, Repr

/-- A global variable; without an initializer it is declared only. -/
structure Global where
  isConstant : Bool
  init : Option Init
  deriving DecidableEq, Repr

/-- `M.globals()`, in order. A global is named by its index. -/
abbrev Module := List Global

/-- `CDS->getAsString()` of an initializer that is a `ConstantDataSequential` of
    bytes. -/
def Init.asString : Init → Option Bytes
  | .string s => some s
  | _ => none

/-- The bytes of the object, if they are plain bytes. -/
def Init.image : Init → Option Bytes
  | .string s => some s
  | .zero size => some (List.replicate size 0)
  | _ => none

/-- `drop_back` if the last byte is NUL. -/
def dropNul (s : Bytes) : Bytes := if s.getLast? = some 0 then s.dropLast else s

/-- `ConstantDataArray::getString` with the NUL added; all zeros become an all-zero
    value. -/
def getString (s : Bytes) : Init :=
  if (s ++ [0]).all (· = 0) then .zero (s.length + 1) else .string (s ++ [0])

/-! ## `emitOpts` -/

/-- The loop's test on a global (lines 116–124). -/
def matchesString (s : Bytes) (g : Global) : Bool :=
  g.isConstant && (g.init.bind Init.asString).any fun gs => dropNul gs = s

/-- `findOrCreateStringGlobal` (lines 114–136). -/
def findOrCreateStringGlobal (M : Module) (s : Bytes) : Module × ℕ :=
  match M.findIdx? (matchesString s) with
  | some g => (M, g)
  | none => (M ++ [⟨true, some (getString s)⟩], M.length)

/-- The loop that fills `Elems` (lines 359–361). -/
def emitElems (M : Module) : List Bytes → Module × List ℕ
  | [] => (M, [])
  | opt :: opts =>
    let (M, g) := findOrCreateStringGlobal M opt
    let (M, elems) := emitElems M opts
    (M, g :: elems)

/-- `emitOpts` (lines 353–369): the module with the array, and the array. -/
def emitOpts (M : Module) (opts : List Bytes) : Module × ℕ :=
  let (M, elems) := emitElems M opts
  (M ++ [⟨true, some (.pointers (elems.map some ++ [none]))⟩], M.length)

/-! ## Reading the options -/

/-- What a C string function reads in an object of these bytes; `none` if it comes to
    the end of the object before a NUL. -/
def cString (image : Bytes) : Option Bytes := (image.findIdx? (· = 0)).map image.take

/-- The C string at a global. -/
def readString (M : Module) (g : ℕ) : Option Bytes :=
  M[g]?.bind fun g => g.init.bind fun i => i.image.bind cString

/-- Reads the strings of an array up to the null pointer; `none` past an end. -/
def readOpts (M : Module) : List (Option ℕ) → Option (List Bytes)
  | [] => none
  | none :: _ => some []
  | some g :: elems => (readString M g).bind fun s => (readOpts M elems).map fun rest => s :: rest

/-- `for (i = 0; opts[i]; ++i)` over `meta->opts`. -/
def readMetaOpts (M : Module) (array : ℕ) : Option (List Bytes) :=
  M[array]?.bind fun g => match g.init with
    | some (.pointers elems) => readOpts M elems
    | _ => none

/-- Entry `i` of the array points to a constant whose bytes up to the first NUL in its
    bounds are option `i`, and one null pointer ends the array. -/
def OptsArray (M : Module) (array : ℕ) (opts : List Bytes) : Prop :=
  ∃ elems : List ℕ, M[array]? = some ⟨true, some (.pointers (elems.map some ++ [none]))⟩ ∧
    List.Forall₂ (fun g opt => (∃ i, M[g]? = some ⟨true, some i⟩) ∧ readString M g = some opt)
      elems opts

/-- A constant byte array that is the option without a NUL, with no constant string
    of the option before it. -/
def UnterminatedFirst (M : Module) (opt : Bytes) : Prop :=
  ∃ i : ℕ, M[i]? = some ⟨true, some (.string opt)⟩ ∧
    ∀ j < i, M[j]? ≠ some ⟨true, some (.string (opt ++ [0]))⟩

/-- The program defines `static const char tag[8] = "op=pread"` and has an annotation
    with this option: the array points to `tag`, and the runtime reads past it. -/
theorem options_unterminated :
    ∃ M : Module, M = [⟨true, some (.string (bytes "op=pread"))⟩,
        ⟨true, some (.string (bytes "op=pread" ++ [0]))⟩] ∧
      ¬ OptsArray (emitOpts M [bytes "op=pread"]).1 (emitOpts M [bytes "op=pread"]).2
        [bytes "op=pread"] ∧
      readMetaOpts (emitOpts M [bytes "op=pread"]).1 (emitOpts M [bytes "op=pread"]).2 = none := by
  refine ⟨_, rfl, ?_, by decide +kernel⟩
  rintro ⟨elems, ha, hall⟩
  cases hall with
  | @cons g _ _ _ hg hrest =>
    cases hrest
    have ha' := ha.symm.trans (show _ = some (Global.mk true (some (.pointers [some 0, none]))) by
      decide +kernel)
    have hg0 : g = 0 := by simpa using ha'
    subst hg0
    exact absurd hg.2 (by decide +kernel)

/-! ## C strings -/

theorem cString_append_nul {s : Bytes} (hs : 0 ∉ s) : cString (s ++ [0]) = some s := by
  have hi : (s ++ [0]).findIdx? (· = 0) = some s.length := by
    rw [List.findIdx?_append, List.findIdx?_eq_none_iff.mpr]
    · simp
    · intro c hc
      rw [decide_eq_false_iff_not]
      rintro rfl
      exact hs hc
  unfold cString
  rw [hi, Option.map_some, List.take_left']
  rfl

theorem cString_eq_none {s : Bytes} (hs : 0 ∉ s) : cString s = none := by
  unfold cString
  rw [Option.map_eq_none_iff, List.findIdx?_eq_none_iff]
  intro c hc
  rw [decide_eq_false_iff_not]
  rintro rfl
  exact hs hc

/-- The strings that match: the option with or without one NUL at the end. -/
theorem dropNul_eq_iff {s gs : Bytes} (hs : 0 ∉ s) : dropNul gs = s ↔ gs = s ∨ gs = s ++ [0] := by
  unfold dropNul
  split_ifs with h
  · obtain ⟨gs, rfl⟩ := List.getLast?_eq_some_iff.mp h
    rw [List.dropLast_concat]
    constructor
    · rintro rfl
      exact Or.inr rfl
    · rintro (rfl | h)
      · exact absurd (by simp) hs
      · exact List.append_cancel_right h
  · constructor
    · exact Or.inl
    · rintro (rfl | rfl)
      · rfl
      · exact absurd (by simp) h

theorem matchesString_iff {s : Bytes} {g : Global} (hs : 0 ∉ s) : matchesString s g = true ↔
    g = ⟨true, some (.string s)⟩ ∨ g = ⟨true, some (.string (s ++ [0]))⟩ := by
  obtain ⟨c, i⟩ := g
  unfold matchesString
  rw [Bool.and_eq_true]
  constructor
  · rintro ⟨rfl, h⟩
    obtain ⟨gs, hi, hgs⟩ := (Option.any_eq_true _ _).mp h
    obtain ⟨i', rfl, hi⟩ := Option.bind_eq_some_iff.mp hi
    cases i' with
    | string gs' =>
      cases hi
      rcases (dropNul_eq_iff hs).mp (of_decide_eq_true hgs) with rfl | rfl
      · exact Or.inl rfl
      · exact Or.inr rfl
    | _ => cases hi
  · rintro (h | h)
    · cases h
      exact ⟨rfl, decide_eq_true ((dropNul_eq_iff hs).mpr (Or.inl rfl))⟩
    · cases h
      exact ⟨rfl, decide_eq_true ((dropNul_eq_iff hs).mpr (Or.inr rfl))⟩

/-- A string the pass makes ends in a NUL. -/
theorem getString_image {s : Bytes} (hs : 0 ∉ s) :
    (getString s).image.bind cString = some s := by
  unfold getString
  split_ifs with hz
  · have hnil : s = [] := by
      rw [List.eq_nil_iff_forall_not_mem]
      intro c hc
      have hc0 := List.all_eq_true.mp hz c (List.mem_append_left _ hc)
      rw [decide_eq_true_eq] at hc0
      exact hs (hc0 ▸ hc)
    subst hnil
    decide
  · exact cString_append_nul hs

/-- … so it is not the unterminated copy of an option. -/
theorem getString_ne {o s : Bytes} (hs : 0 ∉ s) : getString o ≠ .string s := by
  unfold getString
  split_ifs
  · nofun
  · intro h
    cases h
    exact hs (by simp)

/-! ## One option -/

variable {M : Module} {opts : List Bytes} {opt : Bytes}

theorem readString_append {g : ℕ} (M' : Module) (hg : g < M.length) :
    readString (M ++ M') g = readString M g := by
  unfold readString
  rw [List.getElem?_append_left hg]

theorem readString_of {g : ℕ} {c : Bool} {i : Init} (h : M[g]? = some ⟨c, some i⟩) :
    readString M g = i.image.bind cString := by
  unfold readString
  rw [h]
  rfl

/-- Strings the pass has made. -/
def Created (made : Module) : Prop := ∀ g ∈ made, ∃ o, g = ⟨true, some (getString o)⟩

/-- The string for an option, in a module to which the pass has added strings: it is
    read right unless the program's module has an unterminated one first. -/
theorem findOrCreate_spec {made : Module} (hmade : Created made) (hopt : 0 ∉ opt) :
    ∃ made', (findOrCreateStringGlobal (M ++ made) opt).1 = M ++ made' ∧ Created made' ∧
      made <+: made' ∧
      (∃ i, (M ++ made')[(findOrCreateStringGlobal (M ++ made) opt).2]? =
        some ⟨true, some i⟩) ∧
      (readString (M ++ made') (findOrCreateStringGlobal (M ++ made) opt).2 = some opt ↔
        ¬ UnterminatedFirst M opt) := by
  unfold findOrCreateStringGlobal
  cases hf : (M ++ made).findIdx? (matchesString opt) with
  | some g =>
    obtain ⟨hlt, hg, hfirst⟩ := List.findIdx?_eq_some_iff_getElem.mp hf
    have hget : (M ++ made)[g]? = some (M ++ made)[g] := List.getElem?_eq_getElem hlt
    have hno : ∀ j < g, ∀ x, (M ++ made)[j]? = some x → ¬ matchesString opt x = true := by
      intro j hj x hx hm
      obtain ⟨hj', rfl⟩ := List.getElem?_eq_some_iff.mp hx
      exact hfirst j hj hm
    have hleft : ∀ {j : ℕ} {x : Global}, M[j]? = some x → (M ++ made)[j]? = some x := by
      intro j x hx
      rw [List.getElem?_append_left (List.getElem?_eq_some_iff.mp hx).1]
      exact hx
    refine ⟨made, rfl, hmade, List.prefix_refl _, ?_⟩
    rcases (matchesString_iff hopt).mp hg with he | he
    · -- the match has no NUL, and is one of the program's globals
      rw [he] at hget
      have hM : M[g]? = some ⟨true, some (.string opt)⟩ := by
        by_cases hgM : g < M.length
        · rw [← hget, List.getElem?_append_left hgM]
        · rw [List.getElem?_append_right (Nat.not_lt.mp hgM)] at hget
          obtain ⟨o, ho⟩ := hmade _ (List.mem_of_getElem? hget)
          have hi := Option.some.inj (Global.mk.inj ho).2
          exact absurd hi.symm (getString_ne hopt)
      refine ⟨⟨_, hget⟩, iff_of_false ?_ (not_not.mpr ⟨g, hM, fun j hj hx => ?_⟩)⟩
      · rw [readString_of hget]
        show cString opt ≠ some opt
        rw [cString_eq_none hopt]
        nofun
      · exact hno j hj _ (hleft hx) ((matchesString_iff hopt).mpr (Or.inr rfl))
    · rw [he] at hget
      refine ⟨⟨_, hget⟩, iff_of_true ?_ ?_⟩
      · rw [readString_of hget]
        exact cString_append_nul hopt
      · rintro ⟨i, hi, hbefore⟩
        have hig : g ≤ i := by
          by_contra hlt'
          exact hno i (Nat.not_le.mp hlt') _ (hleft hi) ((matchesString_iff hopt).mpr (Or.inl rfl))
        rcases Nat.eq_or_lt_of_le hig with rfl | hgi
        · rw [hleft hi] at hget
          have hlen := congrArg List.length (Init.string.inj (Option.some.inj (Global.mk.inj
            (Option.some.inj hget)).2))
          rw [List.length_append] at hlen
          simp at hlen
        · have hgM : g < M.length := hgi.trans (List.getElem?_eq_some_iff.mp hi).1
          rw [List.getElem?_append_left hgM] at hget
          exact hbefore g hgi hget
  | none =>
    have hget : (M ++ (made ++ [⟨true, some (getString opt)⟩]))[(M ++ made).length]? =
        some ⟨true, some (getString opt)⟩ := by
      rw [← List.append_assoc, List.getElem?_concat_length]
    refine ⟨made ++ [⟨true, some (getString opt)⟩], ?_, ?_, List.prefix_append _ _,
      ⟨_, hget⟩, iff_of_true ?_ ?_⟩
    · rw [← List.append_assoc]
    · intro g hg
      rcases List.mem_append.mp hg with hg | hg
      · exact hmade g hg
      · exact ⟨opt, List.mem_singleton.mp hg⟩
    · exact (readString_of hget).trans (getString_image hopt)
    · rintro ⟨i, hi, -⟩
      have hno := List.findIdx?_eq_none_iff.mp hf _ (List.mem_append_left _ (List.mem_of_getElem? hi))
      rw [(matchesString_iff hopt).mpr (Or.inl rfl)] at hno
      cases hno

/-! ## The whole array -/

theorem emitElems_spec {made : Module} (hmade : Created made) (hopts : ∀ opt ∈ opts, 0 ∉ opt) :
    ∃ made', (emitElems (M ++ made) opts).1 = M ++ made' ∧ made <+: made' ∧
      List.Forall₂ (fun g opt => (∃ i, (M ++ made')[g]? = some ⟨true, some i⟩) ∧
        (readString (M ++ made') g = some opt ↔ ¬ UnterminatedFirst M opt))
        (emitElems (M ++ made) opts).2 opts := by
  induction opts generalizing made with
  | nil => exact ⟨made, rfl, List.prefix_refl _, .nil⟩
  | cons opt opts ih =>
    obtain ⟨made₁, h₁, hmade₁, hpre₁, ⟨i, hi⟩, hread⟩ :=
      findOrCreate_spec (M := M) hmade (hopts opt List.mem_cons_self)
    obtain ⟨made₂, h₂, ⟨more, rfl⟩, hall⟩ :=
      ih hmade₁ fun o ho => hopts o (List.mem_cons_of_mem _ ho)
    refine ⟨made₁ ++ more, ?_, hpre₁.trans (List.prefix_append _ _), ?_⟩
    · show (emitElems (findOrCreateStringGlobal (M ++ made) opt).1 opts).1 = _
      rw [h₁]
      exact h₂
    · show List.Forall₂ _ ((findOrCreateStringGlobal (M ++ made) opt).2 ::
        (emitElems (findOrCreateStringGlobal (M ++ made) opt).1 opts).2) _
      rw [h₁]
      refine .cons ⟨⟨i, ?_⟩, ?_⟩ hall
      · rw [← List.append_assoc, List.getElem?_append_left (List.getElem?_eq_some_iff.mp hi).1]
        exact hi
      · rw [← List.append_assoc, readString_append _ (List.getElem?_eq_some_iff.mp hi).1]
        exact hread

theorem readOpts_eq_some {M : Module} {elems : List ℕ} {opts : List Bytes} :
    readOpts M (elems.map some ++ [none]) = some opts ↔
      List.Forall₂ (fun g opt => readString M g = some opt) elems opts := by
  induction elems generalizing opts with
  | nil =>
    constructor
    · rintro ⟨⟩
      exact .nil
    · rintro ⟨⟩
      rfl
  | cons g elems ih =>
    show (readString M g).bind _ = _ ↔ _
    rw [Option.bind_eq_some_iff]
    constructor
    · rintro ⟨s, hs, h⟩
      obtain ⟨rest, hrest, rfl⟩ := Option.map_eq_some_iff.mp h
      exact .cons hs (ih.mp hrest)
    · intro h
      cases h with
      | cons hg hrest => exact ⟨_, hg, Option.map_eq_some_iff.mpr ⟨_, ih.mpr hrest, rfl⟩⟩

/-- Related lists, each pair with a fact of its own and one that says what holds of
    the right-hand side. -/
theorem forall₂_and_iff {α β : Type} {C P : α → β → Prop} {Q : β → Prop} {as : List α}
    {bs : List β} (h : List.Forall₂ (fun a b => C a b ∧ (P a b ↔ Q b)) as bs) :
    (List.Forall₂ (fun a b => C a b ∧ P a b) as bs ↔ ∀ b ∈ bs, Q b) ∧
      (List.Forall₂ P as bs ↔ ∀ b ∈ bs, Q b) := by
  induction h with
  | nil => exact ⟨iff_of_true .nil nofun, iff_of_true .nil nofun⟩
  | cons h _ ih =>
    rw [List.forall₂_cons, List.forall₂_cons, List.forall_mem_cons, ih.1, ih.2, h.2]
    exact ⟨and_congr_left' (and_iff_right h.1), Iff.rfl⟩

/-- The array is what the runtime expects, and the runtime reads from it exactly the
    options, if and only if no option has an unterminated constant array of its bytes
    before every constant string of it. -/
theorem options_reach_runtime (M : Module) (opts : List Bytes) (hopts : ∀ opt ∈ opts, 0 ∉ opt) :
    (OptsArray (emitOpts M opts).1 (emitOpts M opts).2 opts ↔
      ∀ opt ∈ opts, ¬ UnterminatedFirst M opt) ∧
    (readMetaOpts (emitOpts M opts).1 (emitOpts M opts).2 = some opts ↔
      ∀ opt ∈ opts, ¬ UnterminatedFirst M opt) := by
  obtain ⟨made, hM, -, hall⟩ := @emitElems_spec M opts [] nofun hopts
  rw [List.append_nil] at hM hall
  set elems := (emitElems M opts).2
  set array : Global := ⟨true, some (.pointers (elems.map some ++ [none]))⟩
  have hfst : (emitOpts M opts).1 = M ++ made ++ [array] := by
    show (emitElems M opts).1 ++ _ = _
    rw [hM]
  have hsnd : (emitOpts M opts).2 = (M ++ made).length := by
    show (emitElems M opts).1.length = _
    rw [hM]
  have harray : (emitOpts M opts).1[(emitOpts M opts).2]? = some array := by
    rw [hfst, hsnd, List.getElem?_concat_length]
  -- the strings read the same with the array behind them
  have hall' : List.Forall₂ (fun g opt => (∃ i, (emitOpts M opts).1[g]? = some ⟨true, some i⟩) ∧
      (readString (emitOpts M opts).1 g = some opt ↔ ¬ UnterminatedFirst M opt)) elems opts := by
    refine hall.imp fun g opt h => ?_
    obtain ⟨⟨i, hi⟩, hr⟩ := h
    have hlt := (List.getElem?_eq_some_iff.mp hi).1
    rw [hfst, readString_append _ hlt, List.getElem?_append_left hlt]
    exact ⟨⟨i, hi⟩, hr⟩
  obtain ⟨h1, h2⟩ := forall₂_and_iff hall'
  constructor
  · rw [← h1]
    constructor
    · rintro ⟨elems', ha, h⟩
      rw [harray] at ha
      have he := Init.pointers.inj (Option.some.inj (Global.mk.inj (Option.some.inj ha)).2)
      have he' := List.map_injective_iff.mpr (Option.some_injective ℕ)
        (List.append_cancel_right he)
      rw [he']
      exact h
    · exact fun h => ⟨elems, harray, h⟩
  · rw [← h2, ← readOpts_eq_some]
    unfold readMetaOpts
    rw [harray]
    rfl

/-- A module with a mutable copy of the option and one longer string. -/
theorem options_reach_runtime_mutable :
    readMetaOpts (emitOpts [⟨false, some (.string (bytes "op=pread" ++ [0]))⟩,
        ⟨true, some (.string (bytes "op=pread64" ++ [0]))⟩] [bytes "op=pread"]).1
      (emitOpts [⟨false, some (.string (bytes "op=pread" ++ [0]))⟩,
        ⟨true, some (.string (bytes "op=pread64" ++ [0]))⟩] [bytes "op=pread"]).2 =
      some [bytes "op=pread"] := by
  refine (options_reach_runtime _ _ (by decide +kernel)).2.mpr fun opt ho => ?_
  rw [List.mem_singleton.mp ho]
  rintro ⟨i, hi, -⟩
  have hmem := List.mem_of_getElem? hi
  exact absurd hmem (by decide +kernel)

end FilcAsync
