import Mathlib.Data.List.DropRight
import ScriptMinifier.Proofs.Twin

/-!
# Paths of twins

Two texts are the same path if they have the same components (`Path.Same`), so what is done to a
path is said by what it does to them:

* `Path.components_append`: behind a slash, a text adds the components of its segments.
* `Path.components_push`: a name that is appended is one more component.
* `Path.components_parent`: a path that ends in a name is its parent and that name.
* `Path.components_withName`: another name takes the place of the last component.

The names of twins are inverse to each other (`Twin.minName?_of_devName?`,
`Twin.devName?_of_minName?`), and so are their paths, however they are written
(`Twin.twin_paths_inverse`).
-/

namespace ScriptMinifier

namespace Path

/-! ### Segments -/

theorem segments_of_notMem {xs : Bytes} (h : Byte.slash ∉ xs) : segments xs = [xs] := by
  induction xs with
  | nil => rfl
  | cons b xs ih =>
    rw [List.mem_cons, not_or] at h
    rw [segments, if_neg (Ne.symm h.1), ih h.2]

theorem segments_append (xs ys : Bytes) :
    segments (xs ++ Byte.slash :: ys) = segments xs ++ segments ys := by
  induction xs with
  | nil => simp [segments]
  | cons b xs ih =>
    rw [List.cons_append, segments, segments, ih]
    split
    · rfl
    · cases hs : segments xs with
      | nil => exact absurd hs (segments_ne_nil xs)
      | cons s ss => rfl

theorem glue_cons (s : Bytes) {ss : List Bytes} (h : ss ≠ []) :
    glue (s :: ss) = s ++ Byte.slash :: glue ss := by
  rw [glue]
  exact h

theorem glue_append {ss ts : List Bytes} (hs : ss ≠ []) (ht : ts ≠ []) :
    glue (ss ++ ts) = glue ss ++ Byte.slash :: glue ts := by
  induction ss with
  | nil => exact absurd rfl hs
  | cons s ss ih =>
    rw [List.cons_append, glue_cons s (List.append_ne_nil_of_right_ne_nil ss ht)]
    by_cases hss : ss = []
    · subst hss
      rfl
    · rw [glue_cons s hss, ih hss, List.append_assoc, List.cons_append]

/-- **Texts without a slash, glued, are the segments of the result.** -/
theorem segments_glue {ss : List Bytes} (hne : ss ≠ []) (h : ∀ s ∈ ss, Byte.slash ∉ s) :
    segments (glue ss) = ss := by
  induction ss with
  | nil => exact absurd rfl hne
  | cons s ss ih =>
    have hs := segments_of_notMem (h s List.mem_cons_self)
    by_cases hss : ss = []
    · subst hss
      exact hs
    · rw [glue_cons s hss, segments_append, hs, ih hss fun x hx => h x (List.mem_cons_of_mem s hx)]
      rfl

theorem exists_trimEnd (ss : List Bytes) :
    ∃ idle, ss = trimEnd ss ++ idle ∧ ∀ s ∈ idle, isIdle s = true :=
  ⟨ss.rtakeWhile isIdle, (List.rdropWhile_append_rtakeWhile ..).symm,
    fun _ => List.mem_rtakeWhile_imp⟩

theorem trimEnd_concat {ss init : List Bytes} {s : Bytes} (h : trimEnd ss = init ++ [s]) :
    isIdle s = false := by
  have hlast : ss.rdropWhile isIdle = init ++ [s] := h
  have hne : ss.rdropWhile isIdle ≠ [] := by simp [hlast]
  simpa [hlast] using List.rdropWhile_last_not isIdle ss hne

/-! ### Components -/

def meaning (ss : List Bytes) : List Component :=
  (ss.filter fun s => !isIdle s).map componentOf

theorem components_eq (p : Path) :
    components p = leadComponent p ++ meaning (segments (body p)) := rfl

theorem meaning_append (ss ts : List Bytes) : meaning (ss ++ ts) = meaning ss ++ meaning ts := by
  rw [meaning, List.filter_append, List.map_append, meaning, meaning]

theorem meaning_of_isIdle {ss : List Bytes} (h : ∀ s ∈ ss, isIdle s = true) : meaning ss = [] := by
  have hnone : ss.filter (fun s => !isIdle s) = [] :=
    List.filter_eq_nil_iff.mpr fun s hs => by simp [h s hs]
  rw [meaning, hnone, List.map_nil]

theorem meaning_singleton {s : Bytes} (h : isIdle s = false) : meaning [s] = [componentOf s] := by
  rw [meaning, List.filter_cons_of_pos (by simp [h])]
  rfl

theorem IsName.meaning_eq {n : Name} (h : IsName n) : meaning (segments n) = [.name n] := by
  rw [segments_of_notMem h.notMem, meaning_singleton h.notIdle, componentOf, if_neg h.ne_up]

theorem meaning_glue {ss : List Bytes} (h : ∀ s ∈ ss, Byte.slash ∉ s) :
    meaning (segments (glue ss)) = meaning ss := by
  by_cases hne : ss = []
  · subst hne
    rfl
  · rw [segments_glue hne h]

theorem meaning_body (p : Path) : meaning (segments (body p)) = meaning (segments p) := by
  cases p with
  | nil => rfl
  | cons b p =>
    cases hleads : leads (b :: p) with
    | false => rw [body, hleads]; rfl
    | true =>
      rw [body, hleads, if_pos rfl, List.drop_one, List.tail_cons]
      simp only [leads, Bool.or_eq_true, Bool.and_eq_true, beq_iff_eq, List.isEmpty_iff] at hleads
      rcases hleads with rfl | ⟨rfl, rfl | hslash⟩
      · rw [show Byte.slash :: p = [] ++ Byte.slash :: p from rfl, segments_append, meaning_append]
        rfl
      · rfl
      · obtain ⟨q, rfl⟩ := List.head?_eq_some_iff.mp hslash
        have hdot := segments_append [Byte.dot] q
        have hnone := segments_append [] q
        rw [List.singleton_append] at hdot
        rw [List.nil_append] at hnone
        rw [hdot, hnone, meaning_append, meaning_append]
        rfl

theorem leads_append {q : Path} (hq : q ≠ []) (r : Bytes) :
    leads (q ++ Byte.slash :: r) = leads q := by
  cases q with
  | nil => exact absurd rfl hq
  | cons b q => cases q <;> simp [leads]

theorem leadComponent_append {q : Path} (hq : q ≠ []) (r : Bytes) :
    leadComponent (q ++ Byte.slash :: r) = leadComponent q := by
  cases q with
  | nil => exact absurd rfl hq
  | cons b q =>
    rw [leadComponent, leadComponent, lead, lead, leads_append hq]
    rfl

/-- **Behind a slash a text adds the components of its segments.** -/
theorem components_append {q : Path} (hq : q ≠ []) (r : Bytes) :
    components (q ++ Byte.slash :: r) = components q ++ meaning (segments r) := by
  rw [components_eq, components_eq, meaning_body, meaning_body, leadComponent_append hq,
    segments_append, meaning_append, List.append_assoc]

theorem components_top (r : Bytes) :
    components (Byte.slash :: r) = .top :: meaning (segments r) := rfl

theorem IsName.components_eq {n : Name} (h : IsName n) : components n = [.name n] := by
  have hleads : leads n = false := by
    rw [← Bool.not_eq_true]
    intro hleads
    have hslash := h.notMem
    have hidle := h.notIdle
    cases n with
    | nil => cases hidle
    | cons b n =>
      simp only [leads, Bool.or_eq_true, Bool.and_eq_true, beq_iff_eq, List.isEmpty_iff] at hleads
      rcases hleads with rfl | ⟨rfl, rfl | hhead⟩
      · exact hslash List.mem_cons_self
      · cases hidle
      · exact hslash (List.mem_cons_of_mem _ (List.mem_of_head? hhead))
  rw [Path.components_eq, leadComponent, lead, body, hleads]
  exact h.meaning_eq

theorem components_push {n : Name} (hn : IsName n) (q : Path) :
    components (push q n) = components q ++ [.name n] := by
  rw [push]
  split
  next h =>
    rcases h with rfl | hlast
    · exact hn.components_eq
    · obtain ⟨q, rfl⟩ := List.getLast?_eq_some_iff.mp hlast
      rw [List.append_assoc, List.singleton_append]
      by_cases hq : q = []
      · subst hq
        rw [List.nil_append, List.nil_append, components_top, components_top, hn.meaning_eq]
        rfl
      · rw [components_append hq, components_append hq, hn.meaning_eq]
        exact congrArg (· ++ [Component.name n]) (List.append_nil _).symm
  next h =>
    rw [not_or] at h
    rw [components_append h.1, hn.meaning_eq]

theorem name_notMem_leadComponent (p : Path) (n : Name) : .name n ∉ leadComponent p := by
  rw [leadComponent]
  split
  · simp
  · split <;> simp

theorem lead_append_body (p : Path) : lead p ++ body p = p := by
  rw [lead, body]
  split
  · exact List.take_append_drop 1 p
  · rfl

theorem components_lead (p : Path) : components (lead p) = leadComponent p := by
  cases hleads : leads p with
  | false =>
    rw [leadComponent, lead, hleads]
    rfl
  | true =>
    cases p with
    | nil => cases hleads
    | cons b p =>
      rw [leadComponent, lead, hleads, if_pos rfl, List.take_succ_cons, List.take_zero]
      simp only [leads, Bool.or_eq_true, Bool.and_eq_true, beq_iff_eq] at hleads
      rcases hleads with rfl | ⟨rfl, -⟩ <;> rfl

theorem exists_components {p : Path} {n : Name} (h : name? p = some n) :
    ∃ cs, components p = cs ++ [.name n] := by
  rw [name?] at h
  split at h
  next hlast =>
    obtain rfl := Option.some.inj h
    exact List.getLast?_eq_some_iff.mp hlast
  next => cases h

theorem exists_segments {p : Path} {n : Name} (h : name? p = some n) :
    IsName n ∧ ∃ ss ts, segments (body p) = ss ++ ts ∧ parent p = lead p ++ glue ss ∧
      ts ≠ [] ∧ meaning ts = [.name n] := by
  obtain ⟨cs, hcs⟩ := exists_components h
  rw [components_eq] at hcs
  obtain ⟨idle, hsegments, hidle⟩ := exists_trimEnd (segments (body p))
  rcases List.eq_nil_or_concat' (trimEnd (segments (body p))) with hnil | ⟨init, s, hinit⟩
  · -- nothing but the lead
    rw [hsegments, hnil, List.nil_append, meaning_of_isIdle hidle, List.append_nil] at hcs
    exact absurd (hcs ▸ List.mem_concat_self) (name_notMem_leadComponent p n)
  · obtain ⟨idle', hinit', hidle'⟩ := exists_trimEnd init
    have hs := trimEnd_concat hinit
    have hmeaning : meaning (idle' ++ s :: idle) = [componentOf s] := by
      rw [meaning_append, meaning_of_isIdle hidle', ← List.singleton_append, meaning_append,
        meaning_singleton hs, meaning_of_isIdle hidle]
      rfl
    have hall : segments (body p) = trimEnd init ++ (idle' ++ s :: idle) := by
      rw [← List.append_assoc, ← hinit', hsegments, hinit, List.append_assoc]
      rfl
    rw [hall, meaning_append, hmeaning, ← List.append_assoc] at hcs
    have hname : componentOf s = .name n := by simpa using (List.append_inj' hcs rfl).2
    rw [componentOf] at hname
    split at hname
    · cases hname
    next hup =>
      obtain rfl := Component.name.inj hname
      refine ⟨⟨?_, hs, hup⟩, trimEnd init, idle' ++ s :: idle, hall, ?_, by simp, ?_⟩
      · exact notMem_of_mem_segments (p := body p) (by simp [hall])
      · rw [parent, hinit, List.dropLast_concat]
      · rw [hmeaning, componentOf, if_neg hup]

/-- **A path that ends in a name is its parent and that name.** -/
theorem components_parent {p : Path} {n : Name} (h : name? p = some n) :
    components p = components (parent p) ++ [.name n] := by
  obtain ⟨-, ss, ts, hsegments, hparent, hts, hmeaning⟩ := exists_segments h
  by_cases hss : ss = []
  · subst hss
    rw [hparent, glue, List.append_nil, components_lead, components_eq, hsegments, List.nil_append,
      hmeaning]
  · -- the slash behind the parent is there, and an empty parent would make it the lead
    have hp : p = parent p ++ Byte.slash :: glue ts := by
      rw [hparent, List.append_assoc, ← glue_append hss hts, ← hsegments, glue_segments,
        lead_append_body]
    have hne : parent p ≠ [] := by
      intro hnil
      rw [hnil, List.nil_append] at hp
      rw [hparent, hp] at hnil
      cases hnil
    have hslash : ∀ t ∈ ts, Byte.slash ∉ t := fun t ht =>
      notMem_of_mem_segments (p := body p) (by simp [hsegments, ht])
    calc components p = components (parent p ++ Byte.slash :: glue ts) := by rw [← hp]
      _ = components (parent p) ++ meaning (segments (glue ts)) := components_append hne _
      _ = components (parent p) ++ [.name n] := by rw [meaning_glue hslash, hmeaning]

theorem name?_of_components {p : Path} {cs : List Component} {n : Name}
    (h : components p = cs ++ [.name n]) : name? p = some n := by
  rw [name?, h, List.getLast?_concat]

/-- **Another name takes the place of the last component.** -/
theorem components_withName {p : Path} {n m : Name} (hp : name? p = some n) (hm : IsName m) :
    components (withName p m) = (components p).dropLast ++ [.name m] := by
  rw [withName, hp]
  exact (components_push hm _).trans (by rw [components_parent hp, List.dropLast_concat])

theorem isName_of_name? {p : Path} {n : Name} (h : name? p = some n) : IsName n :=
  (exists_segments h).1

def Same (p q : Path) : Prop := components p = components q

theorem Same.name?_eq {p q : Path} (h : Same p q) : name? p = name? q := by
  rw [name?, name?, h]

end Path

/-! ### Twins -/

namespace Twin

open ScriptMinifier.Path (IsName Same)

/-- The function takes names of entries to names of entries. -/
def KeepsNames (f : Name → Option Name) : Prop := ∀ n m, IsName n → f n = some m → IsName m

theorem keepsNames_devName? : KeepsNames devName? := by
  intro n m hn h
  rw [devName?] at h
  split at h
  next =>
    obtain rfl := Option.some.inj h
    exact isName_swapEnding hn.notMem (by decide) (by decide)
  next => cases h

theorem keepsNames_minName? : KeepsNames minName? := by
  intro n m hn h
  rw [minName?] at h
  split at h
  next =>
    obtain rfl := Option.some.inj h
    exact isName_swapEnding hn.notMem (by decide) (by decide)
  next => cases h

/-- The path with its last name exchanged by `f`; `dev?` and `min?` are of this form. -/
def renamed (f : Name → Option Name) (p : Path) : Option Path := (p.name?.bind f).map p.withName

section Renamed

variable {f g : Name → Option Name} {p q : Path}

theorem exists_of_renamed (h : renamed f p = some q) :
    ∃ n m, p.name? = some n ∧ f n = some m ∧ q = p.withName m := by
  obtain ⟨m, hbind, rfl⟩ := Option.map_eq_some_iff.mp h
  obtain ⟨n, hn, hm⟩ := Option.bind_eq_some_iff.mp hbind
  exact ⟨n, m, hn, hm, rfl⟩

theorem renamed_of_name? {n m : Name} (hn : p.name? = some n) (hm : f n = some m) :
    renamed f p = some (p.withName m) := by
  rw [renamed, hn, Option.bind_some, hm, Option.map_some]

theorem name?_withName {n m : Name} (hn : p.name? = some n) (hm : IsName m) :
    (p.withName m).name? = some m :=
  Path.name?_of_components (Path.components_withName hn hm)

/-- **The same path is renamed to the same path.** -/
theorem same_of_renamed (hf : KeepsNames f) {p' q' : Path} (h : renamed f p = some q)
    (h' : renamed f p' = some q') (hsame : Same p p') : Same q q' := by
  obtain ⟨n, m, hn, hm, rfl⟩ := exists_of_renamed h
  obtain ⟨n', m', hn', hm', rfl⟩ := exists_of_renamed h'
  obtain rfl : n = n' := Option.some.inj (by rw [← hn, ← hn', hsame.name?_eq])
  obtain rfl : m = m' := Option.some.inj (by rw [← hm, ← hm'])
  have hname := hf n m (Path.isName_of_name? hn) hm
  rw [Same, Path.components_withName hn hname, Path.components_withName hn' hname, hsame]

/-- **A path is renamed back** if its name is. -/
theorem exists_renamed_back (hf : KeepsNames f) (hg : KeepsNames g) (h : renamed f p = some q)
    (hback : ∀ n m, p.name? = some n → q.name? = some m → f n = some m → g m = some n) :
    ∃ r, renamed g q = some r ∧ Same r p := by
  obtain ⟨n, m, hn, hm, rfl⟩ := exists_of_renamed h
  have hname := hf n m (Path.isName_of_name? hn) hm
  have hq := name?_withName hn hname
  have hgm := hback n m hn hq hm
  refine ⟨_, renamed_of_name? hq hgm, ?_⟩
  rw [Same, Path.components_withName hq (hg m n hname hgm), Path.components_withName hn hname,
    List.dropLast_concat, Path.components_parent hn, List.dropLast_concat]

end Renamed

theorem isSome_dev? (p : Path) : (dev? p).isSome = isSource p := by
  rw [dev?, isSource, Option.isSome_map]
  cases p.name? with
  | none => rfl
  | some n =>
    rw [Option.bind_some, devName?, Option.any_some]
    cases isSourceName n <;> rfl

theorem isSome_min? (p : Path) : (min? p).isSome = isDev p := by
  rw [min?, isDev, Option.isSome_map]
  cases p.name? with
  | none => rfl
  | some n =>
    rw [Option.bind_some, minName?, Option.any_some]
    cases isDevName n <;> rfl

/-- **The script of the twin of a source is that source.** -/
theorem min?_of_dev? {p d : Path} (h : dev? p = some d) : ∃ q, min? d = some q ∧ Same q p :=
  exists_renamed_back keepsNames_devName? keepsNames_minName? h
    fun _ _ _ _ => minName?_of_devName?

/-- **No path leads to both a source and a twin.** -/
theorem not_isDev_of_isSource {p : Path} (h : isSource p = true) : isDev p = false := by
  rw [isSource] at h
  rw [isDev]
  cases hp : p.name? with
  | none => rfl
  | some n =>
    rw [hp] at h
    exact not_isDevName_of_isSourceName h

/-- **The script of a twin is a source, unless the twin is one of a twin.** -/
theorem isSource_of_min? {d m : Path} (h : min? d = some m) :
    isSource m = true ↔ ∀ n, d.name? = some n → ¬ utf8 "-dev-dev.js" <:+ n := by
  obtain ⟨n, k, hn, hk, rfl⟩ := exists_of_renamed h
  have hname := name?_withName hn (keepsNames_minName? n k (Path.isName_of_name? hn) hk)
  rw [isSource, hname, Option.any_some, isSourceName_of_minName? hk]
  simp [hn]

/-- **The twin of the script of a twin is that twin**, if the script is a source. -/
theorem dev?_of_min? {d m : Path} (h : min? d = some m) (hm : isSource m = true) :
    ∃ d', dev? m = some d' ∧ Same d' d := by
  refine exists_renamed_back keepsNames_minName? keepsNames_devName? h fun n k _ hk hf => ?_
  rw [isSource, hk, Option.any_some] at hm
  exact devName?_of_minName? hf hm

/-- **The paths of twins are inverse to each other**, for every text that a path can be.  A path has
a twin exactly if it leads to a source and a script exactly if it leads to a twin, and never both.
The script of the twin of a source is that source, so different sources have different twins.  The
script of a twin is a source exactly if the twin is not a twin of a twin, and then the twin of that
script is the twin again. -/
theorem twin_paths_inverse (p : Path) :
    ((dev? p).isSome = isSource p ∧ (min? p).isSome = isDev p ∧
      ¬ (isSource p = true ∧ isDev p = true)) ∧
    (∀ d, dev? p = some d →
      isDev d = true ∧ isSource d = false ∧ (∃ q, min? d = some q ∧ Same q p) ∧
      ∀ p' d', dev? p' = some d' → Same d d' → Same p p') ∧
    ∀ m, min? p = some m →
      (isSource m = true ↔ ∀ n, p.name? = some n → ¬ utf8 "-dev-dev.js" <:+ n) ∧
      (isSource m = true → ∃ d, dev? m = some d ∧ Same d p) := by
  have hnever (q : Path) : ¬ (isSource q = true ∧ isDev q = true) := by
    rintro ⟨hsource, hdev⟩
    rw [not_isDev_of_isSource hsource] at hdev
    cases hdev
  refine ⟨⟨isSome_dev? p, isSome_min? p, hnever p⟩, fun d hd => ?_, fun m hm => ?_⟩
  · obtain ⟨q, hq, hqp⟩ := min?_of_dev? hd
    have hdev : isDev d = true := by rw [← isSome_min?, hq, Option.isSome_some]
    have hsource : isSource d = false := Bool.eq_false_iff.mpr fun h => hnever d ⟨h, hdev⟩
    refine ⟨hdev, hsource, ⟨q, hq, hqp⟩, fun p' d' hd' hsame => ?_⟩
    obtain ⟨q', hq', hqp'⟩ := min?_of_dev? hd'
    calc p.components = q.components := hqp.symm
      _ = q'.components := same_of_renamed keepsNames_minName? hq hq' hsame
      _ = p'.components := hqp'
  · exact ⟨isSource_of_min? hm, dev?_of_min? hm⟩

/-- A path that is not written in the shortest way is given back as one that is. -/
theorem twin_paths_of_detour :
    dev? (utf8 "a//./b.js/.") = some (utf8 "a/b-dev.js") ∧
      (∃ q, min? (utf8 "a/b-dev.js") = some q ∧ Same q (utf8 "a//./b.js/.")) ∧
      min? (utf8 "/a-dev.js/") = some (utf8 "/a.js") ∧
      ∃ d, dev? (utf8 "/a.js") = some d ∧ Same d (utf8 "/a-dev.js/") := by
  have hdev : dev? (utf8 "a//./b.js/.") = some (utf8 "a/b-dev.js") := by decide
  have hmin : min? (utf8 "/a-dev.js/") = some (utf8 "/a.js") := by decide
  exact ⟨hdev, ((twin_paths_inverse _).2.1 _ hdev).2.2.1, hmin,
    ((twin_paths_inverse _).2.2 _ hmin).2 (by decide)⟩

end Twin

end ScriptMinifier
