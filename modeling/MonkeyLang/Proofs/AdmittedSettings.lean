import Mathlib.Data.List.Sort
import MonkeyLang.Settings.Load

/-!
# Settings that are admitted

A value gives settings exactly if it is a mapping with known keys whose width is a positive integer
and whose strictness is a truth value; what is not given has its default. Of several faults the one
that is reported is fixed: the value is no mapping, then unknown keys, then the width, then
strictness. Nothing depends on the order of the entries. Main statements: `ofValue_eq_ok_iff` and
`ofValue_eq_error_iff`, which together decide every outcome, and `settings_of_value_and_file`.
-/

namespace MonkeyLang

/-! ### Outcomes in a row -/

section

variable {ε ε' α β : Type} {x : Except ε α} {f : α → Except ε β} {g : ε → ε'}

theorem bind_eq_ok_iff {b : β} : x.bind f = .ok b ↔ ∃ a, x = .ok a ∧ f a = .ok b := by
  cases x <;> simp [Except.bind]

theorem bind_eq_error_iff {e : ε} :
    x.bind f = .error e ↔ x = .error e ∨ ∃ a, x = .ok a ∧ f a = .error e := by
  cases x <;> simp [Except.bind]

theorem mapError_eq_ok_iff {a : α} : x.mapError g = .ok a ↔ x = .ok a := by
  cases x <;> simp [Except.mapError]

theorem mapError_eq_error_iff {e : ε'} :
    x.mapError g = .error e ↔ ∃ fault, x = .error fault ∧ e = g fault := by
  cases x <;> simp [Except.mapError, eq_comm]

end

/-! ### Mappings -/

namespace Value

/-- No two entries have the same key. -/
def DistinctKeys (entries : List (Scalar × Value)) : Prop :=
  (entries.map Prod.fst).Pairwise fun k l => k.sameKey l = false

instance (entries : List (Scalar × Value)) : Decidable (DistinctKeys entries) :=
  inferInstanceAs (Decidable (List.Pairwise _ _))

/-- If the value is a mapping, it has distinct keys. -/
def Keyed (v : Value) : Prop := ∀ entries, v = .mapping entries → DistinctKeys entries

/-- An entry that is put into a mapping leaves the keys as they are, or adds one that is new. -/
theorem keys_put (entries : List (Scalar × Value)) (key : Scalar) (value : Value) :
    (put entries key value).map Prod.fst = entries.map Prod.fst ∨
      (put entries key value).map Prod.fst = entries.map Prod.fst ++ [key] ∧
        ∀ e ∈ entries, e.1.sameKey key = false := by
  induction entries with
  | nil => exact .inr ⟨rfl, by simp⟩
  | cons e entries ih =>
    cases h : e.1.sameKey key with
    | true => exact .inl (by simp [put, h])
    | false =>
      refine ih.imp (fun hkeys => ?_) fun ⟨hkeys, hfresh⟩ => ⟨?_, ?_⟩
      · simp [put, h, hkeys]
      · simp [put, h, hkeys]
      · exact List.forall_mem_cons.2 ⟨h, hfresh⟩

theorem DistinctKeys.put {entries : List (Scalar × Value)} (h : DistinctKeys entries)
    (key : Scalar) (value : Value) : DistinctKeys (put entries key value) := by
  rcases keys_put entries key value with hkeys | ⟨hkeys, hfresh⟩
  · rwa [DistinctKeys, hkeys]
  · rw [DistinctKeys, hkeys, List.pairwise_append]
    refine ⟨h, List.pairwise_singleton _ _, ?_⟩
    simpa using hfresh

/-- A mapping that is put together entry by entry has distinct keys. -/
theorem keyed_ofEntries (given : List (Scalar × Value)) : (ofEntries given).Keyed := by
  intro entries h
  have hfold : ∀ {done : List (Scalar × Value)}, DistinctKeys done →
      DistinctKeys (given.foldl (fun done e => Value.put done e.1 e.2) done) := by
    clear h
    induction given with
    | nil => exact id
    | cons e given ih => exact fun hdone => ih (hdone.put e.1 e.2)
  obtain rfl := Value.mapping.inj h
  exact hfold .nil

/-- Under a text there is one value at most. -/
theorem DistinctKeys.unique {entries : List (Scalar × Value)} (h : DistinctKeys entries)
    {key : String} {v w : Value} (hv : (.text key, v) ∈ entries) (hw : (.text key, w) ∈ entries) :
    v = w := by
  induction entries with
  | nil => cases hv
  | cons e entries ih =>
    obtain ⟨hfresh, hmore⟩ := List.pairwise_cons.1 h
    have hnew {u : Value} (hu : (Scalar.text key, u) ∈ entries) : e.1 ≠ .text key := by
      intro he
      have hsame := hfresh _ (List.mem_map_of_mem hu)
      simp [he, Scalar.sameKey] at hsame
    rcases List.mem_cons.1 hv with rfl | hv <;> rcases List.mem_cons.1 hw with hw | hw
    · exact (Prod.mk.inj hw).2.symm
    · exact absurd rfl (hnew hw)
    · exact absurd (congrArg Prod.fst hw).symm (hnew hv)
    · exact ih hmore hv hw

end Value

namespace Config

open Value (DistinctKeys)

theorem setting?_eq_none_iff {entries : List (Scalar × Value)} {key : String} :
    setting? entries key = none ↔ ∀ value, (.text key, value) ∉ entries := by
  rw [setting?, List.lookup_eq_none_iff]
  constructor
  · intro h value hmem
    simpa using h _ hmem
  · rintro h ⟨k, value⟩ hmem
    rw [bne_iff_ne]
    rintro rfl
    exact h value hmem

theorem mem_of_setting? {entries : List (Scalar × Value)} {key : String} {value : Value}
    (h : setting? entries key = some value) : (.text key, value) ∈ entries := by
  obtain ⟨before, after, rfl, -⟩ := List.lookup_eq_some_iff.1 h
  simp

theorem setting?_eq_some_iff {entries : List (Scalar × Value)} (h : DistinctKeys entries)
    {key : String} {value : Value} :
    setting? entries key = some value ↔ (.text key, value) ∈ entries := by
  refine ⟨mem_of_setting?, fun hmem => ?_⟩
  cases hs : setting? entries key with
  | none => exact absurd hmem (setting?_eq_none_iff.1 hs value)
  | some v => rw [h.unique hmem (mem_of_setting? hs)]

/-- A setting does not depend on the order of the entries. -/
theorem setting?_perm {entries entries' : List (Scalar × Value)} (h : DistinctKeys entries)
    (hperm : entries.Perm entries') (key : String) :
    setting? entries' key = setting? entries key := by
  cases hs : setting? entries' key with
  | none =>
    apply Eq.symm
    rw [setting?_eq_none_iff] at hs ⊢
    exact fun value hmem => hs value (hperm.mem_iff.1 hmem)
  | some value =>
    apply Eq.symm
    rw [setting?_eq_some_iff h]
    exact hperm.mem_iff.2 (mem_of_setting? hs)

/-! ### Keys -/

/-- The keys of settings. -/
def Known (key : Scalar) : Prop := key = .text "int_bits" ∨ key = .text "strict"

instance (key : Scalar) : Decidable (Known key) := inferInstanceAs (Decidable (_ ∨ _))

theorem isKey_iff (key : Scalar) : isKey key = true ↔ Known key := by
  cases key <;> simp [isKey, Known]

/-- The texts of the keys that are not known, in the order of the entries. -/
def strangeTexts (entries : List (Scalar × Value)) : List String :=
  (entries.filter fun e => ¬ Known e.1).map fun e => e.1.plain

theorem unknownKeys_perm_strangeTexts (entries : List (Scalar × Value)) :
    (unknownKeys entries).Perm (strangeTexts entries) := by
  refine (List.mergeSort_perm _ _).trans (.of_eq ?_)
  rw [strangeTexts, ← List.filterMap_eq_filter, List.map_filterMap]
  congr 1
  ext e
  by_cases h : isKey e.1 = true
  · simp [h, (isKey_iff _).1 h]
  · simp [h, mt (isKey_iff _).2 h]

theorem pairwise_unknownKeys (entries : List (Scalar × Value)) :
    (unknownKeys entries).Pairwise (· ≤ ·) := by
  refine (List.pairwise_mergeSort (fun a b c => ?_) (fun a b => ?_) _).imp of_decide_eq_true
  · simpa using String.le_trans
  · simpa using String.le_total a b

/-- The keys that are not known are reported in one order, whatever the order of the entries. -/
theorem unknownKeys_perm {entries entries' : List (Scalar × Value)}
    (hperm : entries.Perm entries') : unknownKeys entries' = unknownKeys entries := by
  have hstrange : (strangeTexts entries').Perm (strangeTexts entries) :=
    (hperm.symm.filter _).map _
  have hkeys : (unknownKeys entries').Perm (unknownKeys entries) :=
    calc (unknownKeys entries').Perm (strangeTexts entries') := unknownKeys_perm_strangeTexts _
      _ |>.Perm (strangeTexts entries) := hstrange
      _ |>.Perm (unknownKeys entries) := (unknownKeys_perm_strangeTexts _).symm
  exact hkeys.eq_of_pairwise (fun _ _ _ _ => String.le_antisymm) (pairwise_unknownKeys _)
    (pairwise_unknownKeys _)

theorem unknownKeys_eq_nil_iff {entries : List (Scalar × Value)} :
    unknownKeys entries = [] ↔ ∀ e ∈ entries, Known e.1 := by
  have hlength := (unknownKeys_perm_strangeTexts entries).length_eq
  rw [← List.length_eq_zero_iff, hlength, List.length_eq_zero_iff, strangeTexts,
    List.map_eq_nil_iff, List.filter_eq_nil_iff]
  simp

/-! ### Values of settings -/

theorem width_eq_ok_iff {value : Value} {w : { n : Nat // 0 < n }} :
    width value = .ok w ↔ value = .ofInt w.1 := by
  obtain ⟨n, hn⟩ := w
  unfold width
  split
  · next m =>
    by_cases hm : 0 < m.toNat
    · simp only [hm, dite_true, Except.ok.injEq, Subtype.mk.injEq, Value.ofInt,
        Value.scalar.injEq, Scalar.int.injEq]
      omega
    · simp only [hm, dite_false, reduceCtorEq, Value.ofInt, Value.scalar.injEq,
        Scalar.int.injEq, false_iff]
      omega
  · next hint =>
    simp only [reduceCtorEq, false_iff]
    exact hint n

theorem width_eq_error_iff {value : Value} {e : SettingsError} :
    width value = .error e ↔
      (∀ n, value ≠ .ofInt n) ∧ e = .widthNotAnInteger value ∨
        ∃ n < 1, value = .ofInt n ∧ e = .widthNotPositive n := by
  unfold width
  split
  · next m =>
    have hsome : ¬ ∀ n, Value.scalar (.int m) ≠ .ofInt n := fun h => h m rfl
    by_cases hm : 0 < m.toNat
    · simp only [hm, dite_true, reduceCtorEq, hsome, false_and, false_or, false_iff]
      rintro ⟨n, hn, heq, -⟩
      obtain rfl : m = n := by simpa [Value.ofInt] using heq
      omega
    · simp only [hm, dite_false, hsome, false_and, false_or, Except.error.injEq]
      constructor
      · rintro rfl
        exact ⟨m, by omega, rfl, rfl⟩
      · rintro ⟨n, -, heq, rfl⟩
        obtain rfl : m = n := by simpa [Value.ofInt] using heq
        rfl
  · next hint =>
    rw [Except.error.injEq]
    constructor
    · rintro rfl
      exact .inl ⟨hint, rfl⟩
    · rintro (⟨-, rfl⟩ | ⟨n, -, heq, -⟩)
      · rfl
      · exact absurd heq (hint n)

theorem strictness_eq_ok_iff {value : Value} {b : Bool} :
    strictness value = .ok b ↔ value = .ofBool b := by
  unfold strictness
  split
  · next c => simp [Value.ofBool]
  · next hbool =>
    simp only [reduceCtorEq, false_iff]
    exact hbool b

theorem strictness_eq_error_iff {value : Value} {e : SettingsError} :
    strictness value = .error e ↔ (∀ b, value ≠ .ofBool b) ∧ e = .strictNotABoolean value := by
  unfold strictness
  split
  · next c =>
    simp only [reduceCtorEq, false_iff]
    exact fun h => h.1 c rfl
  · next hbool =>
    rw [Except.error.injEq]
    constructor
    · rintro rfl
      exact ⟨hbool, rfl⟩
    · rintro ⟨-, rfl⟩
      rfl

/-- What a setting is read as, or its default where it is not given. -/
def readOr {α : Type} (entries : List (Scalar × Value)) (key : String)
    (read : Value → Except SettingsError α) (default : α) : Except SettingsError α :=
  match setting? entries key with
  | some value => read value
  | none => .ok default

section

variable {α : Type} {entries : List (Scalar × Value)} {key : String}
  {read : Value → Except SettingsError α} {default : α}

theorem readOr_eq_ok_iff (h : DistinctKeys entries) {a : α} :
    readOr entries key read default = .ok a ↔
      (∀ value, (.text key, value) ∈ entries → read value = .ok a) ∧
        ((∀ value, (.text key, value) ∉ entries) → a = default) := by
  unfold readOr
  split
  · next value hs =>
    have hmem := mem_of_setting? hs
    constructor
    · intro hread
      exact ⟨fun v hv => h.unique hmem hv ▸ hread, fun hnone => absurd hmem (hnone value)⟩
    · exact fun hread => hread.1 value hmem
  · next hs =>
    rw [setting?_eq_none_iff] at hs
    rw [Except.ok.injEq]
    constructor
    · rintro rfl
      exact ⟨fun v hv => absurd hv (hs v), fun _ => rfl⟩
    · exact fun hread => (hread.2 hs).symm

theorem readOr_eq_error_iff (h : DistinctKeys entries) {e : SettingsError} :
    readOr entries key read default = .error e ↔
      ∃ value, (.text key, value) ∈ entries ∧ read value = .error e := by
  unfold readOr
  split
  · next value hs =>
    have hmem := mem_of_setting? hs
    constructor
    · exact fun hread => ⟨value, hmem, hread⟩
    · rintro ⟨v, hv, hread⟩
      rwa [h.unique hmem hv]
  · next hs =>
    rw [setting?_eq_none_iff] at hs
    simp [hs]

end

/-- What every value of a setting stands for is the same, and the default if there is no value. -/
theorem exists_standsFor {α : Type} {entries : List (Scalar × Value)} (h : DistinctKeys entries)
    {key : String} (default : α) {StandsFor : α → Value → Prop}
    (hvalues : ∀ value, (.text key, value) ∈ entries → ∃ a, StandsFor a value) :
    ∃ a, (∀ value, (.text key, value) ∈ entries → StandsFor a value) ∧
      ((∀ value, (.text key, value) ∉ entries) → a = default) := by
  cases hs : setting? entries key with
  | none =>
    rw [setting?_eq_none_iff] at hs
    exact ⟨default, fun value hmem => absurd hmem (hs value), fun _ => rfl⟩
  | some value =>
    have hmem := mem_of_setting? hs
    obtain ⟨a, ha⟩ := hvalues value hmem
    exact ⟨a, fun v hv => h.unique hmem hv ▸ ha, fun hnone => absurd hmem (hnone value)⟩

/-- Settings are read from a mapping one after the other, once its keys are known. -/
theorem ofValue_mapping (entries : List (Scalar × Value)) :
    ofValue (.mapping entries) =
      if unknownKeys entries = [] then
        (readOr entries "int_bits" width ⟨64, defaultWidth_pos⟩).bind fun w =>
          (readOr entries "strict" strictness false).bind fun strict => .ok ⟨w.1, strict, w.2⟩
      else .error (.unknownKeys (unknownKeys entries)) := by
  rw [ofValue]
  split
  · next hkeys =>
    rw [if_pos hkeys, readOr, readOr]
    cases setting? entries "int_bits" with
    | none =>
      cases setting? entries "strict" <;> rfl
    | some w =>
      cases setting? entries "strict" <;> rfl
  · next hkeys => rw [if_neg (by simpa using hkeys)]

/-- A width that is not below one is the width of some settings. -/
theorem exists_width {entries : List (Scalar × Value)} (h : DistinctKeys entries)
    (hwidth : ∀ v, (.text "int_bits", v) ∈ entries → ∃ n : Int, 1 ≤ n ∧ v = .ofInt n) :
    ∃ w : { n : Nat // 0 < n }, (∀ v, (.text "int_bits", v) ∈ entries → v = .ofInt w.1) ∧
      ((∀ v, (.text "int_bits", v) ∉ entries) → w = ⟨64, defaultWidth_pos⟩) := by
  apply exists_standsFor h
  intro v hv
  obtain ⟨n, hn, rfl⟩ := hwidth v hv
  exact ⟨⟨n.toNat, by omega⟩, congrArg Value.ofInt (Int.toNat_of_nonneg (by omega)).symm⟩

/-! ### Outcomes -/

/-- A mapping whose keys are known, whose width is an integer that is not below one, and whose
strictness is a truth value, as far as they are given. -/
def Valid : Value → Prop
  | .mapping entries =>
    (∀ e ∈ entries, Known e.1) ∧
      (∀ v, (.text "int_bits", v) ∈ entries → ∃ n : Int, 1 ≤ n ∧ v = .ofInt n) ∧
      ∀ v, (.text "strict", v) ∈ entries → ∃ b, v = .ofBool b
  | _ => False

/-- A mapping with known keys gives the width and the strictness that it has, and the defaults of
those that it has not. -/
inductive Gives : Value → Config → Prop
  | mapping {entries c} (known : ∀ e ∈ entries, Known e.1)
    (width : ∀ value, (.text "int_bits", value) ∈ entries → value = .ofInt c.intBits)
    (noWidth : (∀ value, (.text "int_bits", value) ∉ entries) → c.intBits = 64)
    (strictness : ∀ value, (.text "strict", value) ∈ entries → value = .ofBool c.strict)
    (noStrictness : (∀ value, (.text "strict", value) ∉ entries) → c.strict = false) :
    Gives (.mapping entries) c

/-- Why a value is refused. Each reason leaves those before it out. -/
inductive RefusedFor : Value → SettingsError → Prop
  | notAMapping {v} (none : ∀ entries, v ≠ .mapping entries) : RefusedFor v .notAMapping
  | unknownKeys {entries texts} (some : ∃ e ∈ entries, ¬ Known e.1)
    (perm : texts.Perm (strangeTexts entries)) (sorted : texts.Pairwise (· ≤ ·)) :
    RefusedFor (.mapping entries) (.unknownKeys texts)
  | widthNotAnInteger {entries value} (known : ∀ e ∈ entries, Known e.1)
    (given : (.text "int_bits", value) ∈ entries) (none : ∀ n, value ≠ .ofInt n) :
    RefusedFor (.mapping entries) (.widthNotAnInteger value)
  | widthNotPositive {entries n} (known : ∀ e ∈ entries, Known e.1)
    (given : (.text "int_bits", .ofInt n) ∈ entries) (low : n < 1) :
    RefusedFor (.mapping entries) (.widthNotPositive n)
  | strictNotABoolean {entries value} (known : ∀ e ∈ entries, Known e.1)
    (width : ∀ v, (.text "int_bits", v) ∈ entries → ∃ n : Int, 1 ≤ n ∧ v = .ofInt n)
    (given : (.text "strict", value) ∈ entries) (none : ∀ b, value ≠ .ofBool b) :
    RefusedFor (.mapping entries) (.strictNotABoolean value)

section

variable {entries : List (Scalar × Value)}

theorem ofValue_mapping_eq_ok_iff (h : DistinctKeys entries) {c : Config} :
    ofValue (.mapping entries) = .ok c ↔ Gives (.mapping entries) c := by
  obtain ⟨intBits, strict, intBits_pos⟩ := c
  rw [ofValue_mapping]
  split
  · next hkeys =>
    rw [unknownKeys_eq_nil_iff] at hkeys
    simp only [bind_eq_ok_iff, readOr_eq_ok_iff h, width_eq_ok_iff, strictness_eq_ok_iff]
    constructor
    · rintro ⟨w, ⟨hwidth, hnoWidth⟩, s, ⟨hstrict, hnoStrict⟩, hc⟩
      cases hc
      refine .mapping hkeys hwidth (fun hnone => ?_) hstrict hnoStrict
      exact congrArg Subtype.val (hnoWidth hnone)
    · rintro ⟨-, hwidth, hnoWidth, hstrict, hnoStrict⟩
      refine ⟨⟨intBits, intBits_pos⟩, ⟨hwidth, fun hnone => ?_⟩, strict, ⟨hstrict, hnoStrict⟩, rfl⟩
      exact Subtype.ext (hnoWidth hnone)
  · next hkeys =>
    rw [unknownKeys_eq_nil_iff] at hkeys
    simp only [reduceCtorEq, false_iff]
    rintro ⟨hknown⟩
    exact hkeys hknown

/-- With unknown keys nothing else counts. -/
theorem refusedFor_of_unknown (hkeys : ¬ ∀ e ∈ entries, Known e.1) {e : SettingsError} :
    RefusedFor (.mapping entries) e ↔ e = .unknownKeys (unknownKeys entries) := by
  constructor
  · intro hrefused
    cases hrefused with
    | notAMapping hnone => exact absurd rfl (hnone entries)
    | unknownKeys hsome hperm hsorted =>
      have hkeys := hperm.trans (unknownKeys_perm_strangeTexts entries).symm
      rw [hkeys.eq_of_pairwise (fun _ _ _ _ => String.le_antisymm) hsorted
        (pairwise_unknownKeys entries)]
    | widthNotAnInteger hknown | widthNotPositive hknown | strictNotABoolean hknown =>
      exact absurd hknown hkeys
  · rintro rfl
    refine .unknownKeys ?_ (unknownKeys_perm_strangeTexts entries) (pairwise_unknownKeys entries)
    simpa using hkeys

theorem ofValue_mapping_eq_error_iff (h : DistinctKeys entries) {e : SettingsError} :
    ofValue (.mapping entries) = .error e ↔ RefusedFor (.mapping entries) e := by
  rw [ofValue_mapping]
  split
  · next hkeys =>
    rw [unknownKeys_eq_nil_iff] at hkeys
    simp only [bind_eq_error_iff, readOr_eq_error_iff h, readOr_eq_ok_iff h, width_eq_ok_iff,
      width_eq_error_iff, strictness_eq_error_iff, reduceCtorEq, and_false, or_false,
      exists_const]
    constructor
    · rintro (⟨value, hgiven, ⟨hnone, rfl⟩ | ⟨n, hlow, rfl, rfl⟩⟩ |
        ⟨w, ⟨hwidth, -⟩, value, hgiven, hnone, rfl⟩)
      · exact .widthNotAnInteger hkeys hgiven hnone
      · exact .widthNotPositive hkeys hgiven hlow
      · refine .strictNotABoolean hkeys (fun v hv => ⟨w.1, ?_, hwidth v hv⟩) hgiven hnone
        have := w.2
        omega
    · intro hrefused
      cases hrefused with
      | notAMapping hnone => exact absurd rfl (hnone entries)
      | unknownKeys hsome =>
        obtain ⟨e, hmem, hstrange⟩ := hsome
        exact absurd (hkeys e hmem) hstrange
      | widthNotAnInteger hknown hgiven hnone => exact .inl ⟨_, hgiven, .inl ⟨hnone, rfl⟩⟩
      | widthNotPositive hknown hgiven hlow => exact .inl ⟨_, hgiven, .inr ⟨_, hlow, rfl, rfl⟩⟩
      | strictNotABoolean hknown hwidth hgiven hnone =>
        obtain ⟨w, hw⟩ := exists_width h hwidth
        exact .inr ⟨w, hw, _, hgiven, hnone, rfl⟩
  · next hkeys =>
    rw [unknownKeys_eq_nil_iff] at hkeys
    rw [refusedFor_of_unknown hkeys, Except.error.injEq, eq_comm]

theorem exists_gives_iff (h : DistinctKeys entries) :
    (∃ c, Gives (.mapping entries) c) ↔ Valid (.mapping entries) := by
  constructor
  · rintro ⟨c, ⟨hknown, hwidth, -, hstrict, -⟩⟩
    refine ⟨hknown, fun v hv => ⟨c.intBits, ?_, hwidth v hv⟩, fun v hv => ⟨_, hstrict v hv⟩⟩
    have := c.intBits_pos
    omega
  · rintro ⟨hknown, hwidth, hstrict⟩
    obtain ⟨w, hw, hnoWidth⟩ := exists_width h hwidth
    obtain ⟨strict, hs, hnoStrict⟩ := exists_standsFor h false hstrict
    refine ⟨⟨w.1, strict, w.2⟩, .mapping hknown hw (fun hnone => ?_) hs hnoStrict⟩
    exact congrArg Subtype.val (hnoWidth hnone)

end

variable {v : Value}

/-- A value gives settings exactly if it is as it should be. -/
theorem ofValue_eq_ok_iff (h : v.Keyed) {c : Config} : ofValue v = .ok c ↔ Gives v c := by
  cases v with
  | mapping entries => exact ofValue_mapping_eq_ok_iff (h entries rfl)
  | scalar s => exact ⟨nofun, nofun⟩
  | list items => exact ⟨nofun, nofun⟩

/-- A value is refused for one reason. -/
theorem ofValue_eq_error_iff (h : v.Keyed) {e : SettingsError} :
    ofValue v = .error e ↔ RefusedFor v e := by
  have hnotAMapping {v : Value} (hv : ∀ entries, v ≠ .mapping entries) :
      (Except.error .notAMapping : Except SettingsError Config) = .error e ↔ RefusedFor v e := by
    rw [Except.error.injEq]
    constructor
    · rintro rfl
      exact .notAMapping hv
    · intro hrefused
      cases hrefused with
      | notAMapping => rfl
      | _ => exact absurd rfl (hv _)
  cases v with
  | mapping entries => exact ofValue_mapping_eq_error_iff (h entries rfl)
  | scalar s => exact hnotAMapping nofun
  | list items => exact hnotAMapping nofun

theorem valid_iff (h : v.Keyed) : Valid v ↔ ∃ c, ofValue v = .ok c := by
  cases v with
  | mapping entries =>
    rw [← exists_gives_iff (h entries rfl)]
    simp only [ofValue_mapping_eq_ok_iff (h entries rfl)]
  | scalar s => exact ⟨nofun, nofun⟩
  | list items => exact ⟨nofun, nofun⟩

/-- The order of the entries does not matter. -/
theorem ofValue_perm {entries entries' : List (Scalar × Value)} (h : DistinctKeys entries)
    (hperm : entries.Perm entries') :
    ofValue (.mapping entries') = ofValue (.mapping entries) := by
  simp only [ofValue_mapping, readOr, unknownKeys_perm hperm, setting?_perm h hperm]

/-- Only unknown keys are reported as problems, each of them once and in order. -/
theorem RefusedFor.problems_ne_nil_iff {e : SettingsError} (h : RefusedFor v e) :
    e.problems ≠ [] ↔ ∃ entries, v = .mapping entries ∧ ∃ e ∈ entries, ¬ Known e.1 := by
  cases h with
  | notAMapping hnone =>
    simp [SettingsError.problems, hnone]
  | @unknownKeys entries texts hsome hperm hsorted =>
    have htexts : texts ≠ [] ↔ strangeTexts entries ≠ [] := by
      rw [ne_eq, ne_eq, ← List.length_eq_zero_iff, hperm.length_eq, List.length_eq_zero_iff]
    simp [SettingsError.problems, htexts, strangeTexts]
  | widthNotAnInteger hknown | widthNotPositive hknown | strictNotABoolean hknown =>
    simpa [SettingsError.problems] using hknown

end Config

/-! ### Files -/

namespace Json

/-- A mapping that is read has distinct keys. -/
theorem keyed_of_valueWithin {n : Nat} {cs rest : List Char} {v : Value}
    (h : valueWithin n cs = .ok (v, rest)) : v.Keyed := by
  cases n with
  | zero => cases h
  | succ n =>
    unfold valueWithin at h
    split at h
    · obtain ⟨⟨s, more⟩, -, h⟩ := bind_eq_ok_iff.1 h
      cases h
      exact nofun
    · obtain ⟨⟨entries, more⟩, -, h⟩ := bind_eq_ok_iff.1 h
      cases h
      exact Value.keyed_ofEntries entries
    · obtain ⟨⟨items, more⟩, -, h⟩ := bind_eq_ok_iff.1 h
      cases h
      exact nofun
    · obtain ⟨⟨s, more⟩, -, h⟩ := bind_eq_ok_iff.1 h
      cases h
      exact nofun

theorem keyed_of_read {cs : List Char} {v : Value} (h : read cs = .ok v) : v.Keyed := by
  unfold read at h
  split at h
  · cases h
  · obtain ⟨⟨w, rest⟩, hw, h⟩ := bind_eq_ok_iff.1 h
    dsimp only at h
    split at h
    · cases h
      exact keyed_of_valueWithin hw
    · cases h

end Json

namespace Config

variable {folder : Folder} {path : String}

/-- A mapping that a file holds has distinct keys. -/
theorem keyed_of_readFile {v : Value} (h : readFile folder path = .ok v) : v.Keyed := by
  obtain ⟨bytes, -, h⟩ := bind_eq_ok_iff.1 h
  obtain ⟨characters, -, h⟩ := bind_eq_ok_iff.1 h
  exact Json.keyed_of_read (mapError_eq_ok_iff.1 h)

/-- A file gives settings exactly if it can be read and its value gives them. -/
theorem load_eq_ok_iff {c : Config} :
    load folder path = .ok c ↔ ∃ v, readFile folder path = .ok v ∧ ofValue v = .ok c := by
  apply Iff.trans bind_eq_ok_iff
  simp only [mapError_eq_ok_iff]

/-- What is wrong with the file itself is wrapped, and what is wrong with its value is not. -/
theorem load_eq_error_iff {e : SettingsError} :
    load folder path = .error e ↔
      (∃ fault, readFile folder path = .error fault ∧ e = .unreadable fault) ∨
        ∃ v, readFile folder path = .ok v ∧ ofValue v = .error e := by
  apply Iff.trans bind_eq_error_iff
  simp only [mapError_eq_ok_iff, mapError_eq_error_iff]

/-- Exactly the valid values give settings, namely what they hold or the defaults, and every other
value is refused for its first fault; only unknown keys are problems, one for each of them, in the
order of their texts. The order of the entries changes nothing. A file gives what its value gives;
a fault of the file itself is wrapped, and a refusal of its value is passed on. -/
theorem settings_of_value_and_file {v : Value} (h : v.Keyed) (folder : Folder) (path : String) :
    (Valid v ↔ ∃ c, ofValue v = .ok c) ∧
      (∀ c, ofValue v = .ok c ↔ Gives v c) ∧
      (¬ Valid v ↔ ∃ e, ofValue v = .error e) ∧
      (∀ e, ofValue v = .error e ↔ RefusedFor v e) ∧
      (∀ e, ofValue v = .error e →
        (e.problems ≠ [] ↔ ∃ entries, v = .mapping entries ∧ ∃ e ∈ entries, ¬ Known e.1)) ∧
      (∀ entries, v = .mapping entries → (∃ e ∈ entries, ¬ Known e.1) →
        ∃ (e : SettingsError) (texts : List String), ofValue v = .error e ∧
          e.message = "Unknown configuration key(s)" ∧
          e.problems = texts.map (fun key => "'" ++ key ++ "' is not a parser setting") ∧
          texts.Perm (strangeTexts entries) ∧ texts.Pairwise (· ≤ ·)) ∧
      (∀ entries entries', v = .mapping entries → entries.Perm entries' →
        ofValue (.mapping entries') = ofValue v) ∧
      (∀ value, readFile folder path = .ok value → value.Keyed) ∧
      (∀ c, load folder path = .ok c ↔
        ∃ value, readFile folder path = .ok value ∧ ofValue value = .ok c) ∧
      ∀ e, load folder path = .error e ↔
        (∃ fault, readFile folder path = .error fault ∧ e = .unreadable fault ∧
          e.message = "Failed to load parser config: " ++ fault.message ∧ e.problems = [] ∧
          e.cause? = some fault) ∨
        ∃ value, readFile folder path = .ok value ∧ ofValue value = .error e := by
  refine ⟨valid_iff h, fun c => ofValue_eq_ok_iff h, ?_, fun e => ofValue_eq_error_iff h,
    fun e he => ((ofValue_eq_error_iff h).1 he).problems_ne_nil_iff, ?_, ?_,
    fun value => keyed_of_readFile, fun c => load_eq_ok_iff, fun e => ?_⟩
  · rw [valid_iff h]
    cases ofValue v <;> simp
  · rintro entries rfl hstrange
    refine ⟨.unknownKeys (unknownKeys entries), unknownKeys entries, ?_, rfl, rfl,
      unknownKeys_perm_strangeTexts entries, pairwise_unknownKeys entries⟩
    rw [ofValue_mapping, if_neg]
    simpa [unknownKeys_eq_nil_iff] using hstrange
  · rintro entries entries' rfl hperm
    exact ofValue_perm (h entries rfl) hperm
  · rw [load_eq_error_iff]
    refine or_congr_left (exists_congr fun fault => and_congr_right fun _ => ?_)
    constructor
    · rintro rfl
      exact ⟨rfl, rfl, rfl, rfl⟩
    · exact And.left

/-- Two unknown keys with one text are two problems, and the width that is not positive is not
reported. A file that must not be opened is reported with what the system says. -/
theorem settings_of_equal_texts :
    let entries : List (Scalar × Value) :=
      [(.text "int_bits", .ofInt 0), (.text "1", .ofBool true), (.int 1, .ofInt 8)]
    let folder : Folder := ⟨fun _ => .error (.notOpened 13 "Permission denied")⟩
    (Value.mapping entries).Keyed ∧ ¬ Valid (.mapping entries) ∧
      (∃ (e : SettingsError) (texts : List String), ofValue (.mapping entries) = .error e ∧
        e.message = "Unknown configuration key(s)" ∧
        e.problems = texts.map (fun key => "'" ++ key ++ "' is not a parser setting") ∧
        texts.Perm ["1", "1"] ∧ ofValue (.mapping entries.reverse) = .error e) ∧
      ∃ e, load folder "parser.json" = .error e ∧ e.problems = [] ∧
        e.message =
          "Failed to load parser config: [Errno 13] Permission denied: 'parser.json'" := by
  intro entries folder
  have hkeyed : (Value.mapping entries).Keyed := by
    rintro _ ⟨⟩
    decide
  obtain ⟨-, -, hvalid, -, -, hunknown, hperm, -, -, hfile⟩ :=
    settings_of_value_and_file hkeyed folder "parser.json"
  obtain ⟨e, texts, he, hmessage, hproblems, htexts, -⟩ :=
    hunknown entries rfl ⟨(.int 1, .ofInt 8), by simp [entries], by decide⟩
  refine ⟨hkeyed, hvalid.2 ⟨e, he⟩, ⟨e, texts, he, hmessage, hproblems, htexts, ?_⟩, ?_⟩
  · rw [hperm entries entries.reverse rfl (List.reverse_perm _).symm, he]
  · have hread : readFile folder "parser.json" =
        .error (.file "parser.json" (.notOpened 13 "Permission denied")) := rfl
    have hload := (hfile _).2 (.inl ⟨_, hread, rfl, rfl, rfl, rfl⟩)
    exact ⟨_, hload, rfl, by decide +kernel⟩

end Config

end MonkeyLang
