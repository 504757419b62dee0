import ScriptMinifier.Proofs.Utf8
import ScriptMinifier.Twin
import ScriptMinifier.Tree.Basic

/-!
# Names of twins

A source and its twin have the same stem, so each of the two names gives the other one back
(`Twin.minName?_of_devName?`, `Twin.devName?_of_minName?`): two sources never share a twin, and a
twin is never taken for a source.  The names have to be UTF-8, so this rests on cutting a text in
front of the ending (`Twin.exists_stem_of_hasEnding`).
-/

namespace ScriptMinifier

/-! ### Names -/

namespace Twin

theorem swapEnding_append (old new stem : Bytes) :
    swapEnding old new (stem ++ old) = stem ++ new := by
  simp [swapEnding]

theorem isName_swapEnding {old new : Bytes} {n : Name} (hn : Byte.slash ∉ n)
    (hnew : Byte.slash ∉ new) (hlength : 3 ≤ new.length) : Path.IsName (swapEnding old new n) := by
  have hlong : 3 ≤ (swapEnding old new n).length := by
    rw [swapEnding, List.length_append]
    omega
  refine ⟨?_, ?_, ?_⟩
  · rw [swapEnding, List.mem_append, not_or]
    exact ⟨fun hmem => hn (List.mem_of_mem_take hmem), hnew⟩
  · rw [← Bool.not_eq_true]
    intro hidle
    simp only [Path.isIdle, Bool.or_eq_true, beq_iff_eq] at hidle
    rcases hidle with hn | hn <;> simp [hn] at hlong
  · intro hup
    simp [hup, Path.up] at hlong

theorem isSome_ofUtf8?_devEnding : (ofUtf8? devEnding).isSome = true := by
  have h : devEnding = utf8 "-dev.js" := rfl
  rw [h, ofUtf8?_utf8]
  rfl

theorem isSome_ofUtf8?_scriptEnding : (ofUtf8? scriptEnding).isSome = true := by
  have h : scriptEnding = utf8 ".js" := rfl
  rw [h, ofUtf8?_utf8]
  rfl

theorem hasEnding_append {stem ending : Bytes} (hstem : (ofUtf8? stem).isSome = true)
    (hending : (ofUtf8? ending).isSome = true) : hasEnding ending (stem ++ ending) = true := by
  rw [hasEnding, Bool.and_eq_true, List.isSuffixOf_iff_suffix]
  exact ⟨isSome_ofUtf8?_append hstem hending, List.suffix_append ..⟩

/-- **A name with an ending is a text in front of it.** -/
theorem exists_stem_of_hasEnding {b : Byte} {ending : Bytes} {n : Name}
    (hb : b.IsUTF8FirstByte) (h : hasEnding (b :: ending) n = true) :
    ∃ stem, n = stem ++ b :: ending ∧ (ofUtf8? stem).isSome = true := by
  rw [hasEnding, Bool.and_eq_true, List.isSuffixOf_iff_suffix] at h
  obtain ⟨htext, stem, rfl⟩ := h
  exact ⟨stem, rfl, ((isSome_ofUtf8?_append_cons_iff hb).mp htext).1⟩

theorem exists_stem {n : Name} (h : isSourceName n = true) :
    ∃ stem, n = stem ++ scriptEnding ∧ (ofUtf8? stem).isSome = true := by
  rw [isSourceName, Bool.and_eq_true] at h
  exact exists_stem_of_hasEnding (.inl (by decide)) h.1

theorem exists_stem_of_isDevName {n : Name} (h : isDevName n = true) :
    ∃ stem, n = stem ++ devEnding ∧ (ofUtf8? stem).isSome = true :=
  exists_stem_of_hasEnding (.inl (by decide)) h

theorem minName?_of_devName? {n m : Name} (h : devName? n = some m) : minName? m = some n := by
  rw [devName?] at h
  split at h
  next hsource =>
    obtain ⟨stem, rfl, hstem⟩ := exists_stem hsource
    rw [swapEnding_append] at h
    obtain rfl := Option.some.inj h
    have hdev : isDevName (stem ++ devEnding) = true :=
      hasEnding_append hstem isSome_ofUtf8?_devEnding
    rw [minName?, if_pos hdev, swapEnding_append]
  next => cases h

theorem devName?_of_minName? {n m : Name} (h : minName? n = some m) (hm : isSourceName m = true) :
    devName? m = some n := by
  rw [minName?] at h
  split at h
  next hdev =>
    obtain ⟨stem, rfl, -⟩ := exists_stem_of_isDevName hdev
    rw [swapEnding_append] at h
    obtain rfl := Option.some.inj h
    rw [devName?, if_pos hm, swapEnding_append]
  next => cases h

/-- **The script of a twin is a source, unless the twin is one of a twin.** -/
theorem isSourceName_of_minName? {n m : Name} (h : minName? n = some m) :
    isSourceName m = true ↔ ¬ utf8 "-dev-dev.js" <:+ n := by
  rw [minName?] at h
  split at h
  next hdev =>
    obtain ⟨stem, rfl, hstem⟩ := exists_stem_of_isDevName hdev
    rw [swapEnding_append] at h
    obtain rfl := Option.some.inj h
    have hscript : utf8 "-dev" ++ scriptEnding <:+ stem ++ scriptEnding ↔ utf8 "-dev" <:+ stem :=
      List.suffix_append_self_iff
    have htwin : utf8 "-dev" ++ devEnding <:+ stem ++ devEnding ↔ utf8 "-dev" <:+ stem :=
      List.suffix_append_self_iff
    have hendings : devEnding = utf8 "-dev" ++ scriptEnding ∧
        utf8 "-dev-dev.js" = utf8 "-dev" ++ devEnding := by decide
    rw [isSourceName, hasEnding_append hstem isSome_ofUtf8?_scriptEnding, Bool.true_and,
      Bool.not_eq_true', ← Bool.not_eq_true, List.isSuffixOf_iff_suffix, hendings.2, htwin,
      ← hscript, ← hendings.1]
  next => cases h

theorem not_isDevName_of_isSourceName {n : Name} (h : isSourceName n = true) :
    isDevName n = false := by
  rw [isSourceName, Bool.and_eq_true, Bool.not_eq_true'] at h
  rw [isDevName, hasEnding, h.2, Bool.and_false]

/-! ### Addresses -/

def beside (a : Address) : Address := ⟨a.dir, swapEnding scriptEnding devEnding a.name⟩

def AtSource (a : Address) : Prop := isSourceName a.name = true

theorem devName?_of_atSource {a : Address} (ha : AtSource a) :
    devName? a.name = some (beside a).name := if_pos ha

theorem minName?_beside {a : Address} (ha : AtSource a) : minName? (beside a).name = some a.name :=
  minName?_of_devName? (devName?_of_atSource ha)

theorem isDevName_beside {a : Address} (ha : AtSource a) : isDevName (beside a).name = true := by
  have h := minName?_beside ha
  rw [minName?] at h
  split at h
  next hdev => exact hdev
  next => cases h

/-- **No source has the address of a twin.** -/
theorem ne_beside {a b : Address} (ha : AtSource a) (hb : AtSource b) : a ≠ beside b := by
  intro h
  have hdev := isDevName_beside hb
  rw [← h, not_isDevName_of_isSourceName ha] at hdev
  cases hdev

/-- **Two sources have different twins.** -/
theorem beside_inj {a b : Address} (ha : AtSource a) (hb : AtSource b) (h : beside a = beside b) :
    a = b := by
  have hname : some a.name = some b.name := by
    rw [← minName?_beside ha, h, minName?_beside hb]
  have hdir : (beside a).dir = (beside b).dir := congrArg Address.dir h
  calc a = ⟨(beside a).dir, a.name⟩ := rfl
    _ = ⟨(beside b).dir, b.name⟩ := by rw [hdir, Option.some.inj hname]
    _ = b := rfl

theorem isEntryName_beside {a : Address} (h : Tree.IsEntryName a.name)
    (hlength : (beside a).name.length ≤ Tree.maxName) : Tree.IsEntryName (beside a).name :=
  ⟨isName_swapEnding h.notMem (by decide) (by decide), hlength⟩

end Twin

end ScriptMinifier
