import ScriptMinifier.Proofs.Stream.Refinement

/-!
# How a run calls its reader

A reader may fail or give nothing in any call.  A run calls it in turn: only when all that it handed
out was taken, and never again once it gave nothing or failed for good.

That a call which gives nothing ends the input is a statement about two runs.  `Reader.course` is
what a reader is going to hand out until then.  A source whose reader is replaced by one that holds
just its course (`Source.foreseen`) has the same bytes to give, so two sources with the same course
go alongside each other (`Source.Alongside`), however their readers cut it into calls.

* `Reader.course_of_steady`: a steady reader hands out all it has.
* `minifyStream_of_course`: only what the reader hands out matters.
* `Indexed.Recorded.course_eq`: the course is what the calls on record gave.
* `minifyStream_reads_in_turn`: all of it, for every run.
-/

namespace ScriptMinifier.Stream

/-! ### What a reader hands out -/

namespace Reader

/-- What a reader hands out until a call gives nothing or fails for good, and that fault. -/
def course (r : Reader) (size : Nat) : Bytes × Option Fault :=
  match _hread : r.read size with
  | (.ok [], _) => ([], none)
  | (.ok (b :: given), r') => (b :: given ++ (r'.course size).1, (r'.course size).2)
  | (.error f, r') => if f.interrupts then r'.course size else ([], some f)
termination_by r.script.length + r.bytes.length
decreasing_by
  · have hscript := length_script_of_read_ok _hread
    have hbytes := congrArg List.length (append_bytes_of_read _hread)
    simp only [List.length_append, List.length_cons] at hbytes
    omega
  · have hscript := length_script_of_read_error _hread
    have hbytes := congrArg List.length (bytes_of_read_error _hread)
    omega

variable {r r' : Reader} {size : Nat} {f : Fault} {given : Bytes}

theorem course_of_end (h : r.read size = (.ok [], r')) : r.course size = ([], none) := by
  rw [course]
  split <;> rename_i heq
  · rfl
  · exact absurd (h.symm.trans heq) (by simp)
  · exact absurd (h.symm.trans heq) (by simp)

theorem course_of_chunk (h : r.read size = (.ok given, r')) (hgiven : given ≠ []) :
    r.course size = (given ++ (r'.course size).1, (r'.course size).2) := by
  rw [course]
  split <;> rename_i heq
  · exact absurd (Except.ok.inj (Prod.mk.inj (h.symm.trans heq)).1) hgiven
  · obtain ⟨hbytes, rfl⟩ := Prod.mk.inj (h.symm.trans heq)
    rw [Except.ok.inj hbytes]
  · exact absurd (h.symm.trans heq) (by simp)

theorem course_of_error (h : r.read size = (.error f, r')) :
    r.course size = if f.interrupts then r'.course size else ([], some f) := by
  rw [course]
  split <;> rename_i heq
  · exact absurd (h.symm.trans heq) (by simp)
  · exact absurd (h.symm.trans heq) (by simp)
  · obtain ⟨hfault, rfl⟩ := Prod.mk.inj (h.symm.trans heq)
    rw [Except.error.inj hfault]

theorem course_eq_readThrough (r : Reader) (size : Nat) :
    r.course size = match r.readThrough size with
      | (.error f, _) => ([], some f)
      | (.ok [], _) => ([], none)
      | (.ok (b :: given), r') => (b :: given ++ (r'.course size).1, (r'.course size).2) := by
  fun_induction course r size with
  | case1 r r' hread =>
    have hthrough : r.readThrough size = r.read size :=
      readThrough_of_not_interrupted (by simp [hread])
    rw [hthrough, hread]
  | case2 r b given r' hread =>
    have hthrough : r.readThrough size = r.read size :=
      readThrough_of_not_interrupted (by simp [hread])
    rw [hthrough, hread]
  | case3 r f r' hread hf ih =>
    rw [readThrough_of_interrupted hread hf]
    exact ih
  | case4 r f r' hread hf =>
    have hthrough : r.readThrough size = r.read size :=
      readThrough_of_not_interrupted (by simpa [hread] using hf)
    rw [hthrough, hread]

theorem course_of_steady (h : r.Steady) (hsize : 0 < size) : r.course size = (r.bytes, none) := by
  generalize hn : r.bytes.length = n
  induction n using Nat.strongRecOn generalizing r with
  | ind n ih =>
    obtain ⟨given, r', hread⟩ := h.2.exists_ok size
    have hbytes := append_bytes_of_readThrough hread
    rw [course_eq_readThrough, hread]
    cases given with
    | nil =>
      have hnil := h.1.bytes_eq_nil hsize hread
      rw [hnil]
    | cons b given =>
      have hlively := h.1.readThrough size
      have hcalm := h.2.readThrough size
      rw [hread] at hlively hcalm
      have hlt : r'.bytes.length < n := by
        rw [← hn, ← hbytes, List.length_append, List.length_cons]
        omega
      rw [← hbytes]
      dsimp only
      rw [ih _ hlt ⟨hlively, hcalm⟩ rfl]

end Reader

/-! ### A source whose reader gives nothing in the end -/

namespace Source

/-- The source as if its reader held just what is going to be handed out. -/
def foreseen (s : Source) : Source :=
  { s with reader := { bytes := if s.exhausted then [] else (s.reader.course s.size).1 } }

/-- No call is going to fail for good. -/
structure Ends (s : Source) : Prop where
  course : s.exhausted = false → (s.reader.course s.size).2 = none
  sound : s.foreseen.Sound

theorem ends_ofReader {r : Reader} {size : Nat} (h : (r.course (max size 1)).2 = none) :
    (ofReader r size).Ends :=
  ⟨fun _ => h, sound_ofReader (Reader.steady_whole _).1 size⟩

theorem raw_foreseen {s : Source} (hchunk : s.chunk = []) (hopen : s.exhausted = false) :
    s.foreseen.raw = (s.reader.course s.size).1 := by
  rw [raw, foreseen, hchunk, hopen]
  rfl

theorem Ends.refilled {s s' : Source} (h : s.Ends)
    (hsize : s'.size = s.size) (hpending : s'.pending = s.pending) (hcursor : s'.cursor = s.cursor)
    (hlast : s'.last = s.last) (hraw : s'.foreseen.raw = s.foreseen.raw)
    (htotal : s'.foreseen.total = s.foreseen.total)
    (hend : s'.exhausted = true → s'.foreseen.raw = [])
    (hchunk : s'.chunk = [] → s'.foreseen.raw = []) : s.foreseen.Refilled s'.foreseen := by
  refine ⟨⟨(Reader.steady_whole _).1, ?_, hend, ?_, ?_⟩, hraw, hpending, hcursor, hlast, htotal,
    hchunk⟩
  · exact hsize ▸ h.sound.size_pos
  · intro p hp
    exact hcursor.trans (h.sound.cursor_of_pending p (hpending ▸ hp))
  · intro p hp hnone
    exact hraw.trans (h.sound.raw_of_pending p (hpending ▸ hp) hnone)

theorem fill_of_ends {s : Source} (h : s.Ends) :
    ∃ s', s.fill = (.ok (), s') ∧ s'.Ends ∧ s.foreseen.Refilled s'.foreseen := by
  unfold fill
  split
  next hdone =>
    refine ⟨s, rfl, h, h.sound, rfl, rfl, rfl, rfl, rfl, fun hchunk => ?_⟩
    rcases hdone with hne | hend
    · exact absurd hchunk hne
    · exact h.sound.raw_of_exhausted hend
  next hneed =>
    obtain ⟨hchunk, hopen⟩ : s.chunk = [] ∧ s.exhausted = false := by
      simpa [not_or] using hneed
    have hraw := raw_foreseen hchunk hopen
    have hcourse := s.reader.course_eq_readThrough s.size
    have hnone := h.course hopen
    have htotal : s.foreseen.total = s.bytesRead + s.foreseen.raw.length := by
      rw [hraw, total, foreseen, hopen]
      rfl
    rcases hread : s.reader.readThrough s.size with ⟨f | _ | ⟨b, given⟩, reader⟩
    all_goals rw [hread] at hcourse
    · rw [hcourse] at hnone
      cases hnone
    · rw [hcourse] at hraw
      have hrefilled : s.foreseen.Refilled
          { s with
            reader
            chunk := []
            exhausted := true
            bytesRead := s.bytesRead }.foreseen :=
        h.refilled rfl rfl rfl rfl hraw.symm (by rw [htotal, hraw]; rfl) (fun _ => rfl)
          (fun _ => rfl)
      exact ⟨_, rfl, ⟨by simp, hrefilled.sound⟩, hrefilled⟩
    · rw [hcourse] at hraw hnone
      have hrefilled : s.foreseen.Refilled
          { s with
            reader
            chunk := b :: given
            exhausted := false
            bytesRead := s.bytesRead + (b :: given).length }.foreseen := by
        refine h.refilled rfl rfl rfl rfl hraw.symm ?_ (by simp) (by simp [foreseen])
        rw [htotal, hraw, List.length_append, ← Nat.add_assoc]
        rfl
      exact ⟨_, rfl, ⟨fun _ => hnone, hrefilled.sound⟩, hrefilled⟩

theorem get_of_ends {s : Source} (h : s.Ends) :
    ∃ byte s', s.get = (.ok byte, s') ∧ s'.Ends ∧ s.foreseen.Gets byte s'.foreseen := by
  rcases hp : s.pending with _ | p
  · obtain ⟨s₁, hs₁, h₁, hrefilled⟩ := fill_of_ends h
    rcases hchunk : s₁.chunk with _ | ⟨b, chunk⟩
    · have hgets := gets_of_end (s := s.foreseen) hp hrefilled hchunk
      exact ⟨_, _, get_of_nil hp hs₁ hchunk, ⟨h₁.course, hgets.sound⟩, hgets⟩
    · by_cases hb : b = Byte.cr
      · subst hb
        have htail : { s₁ with chunk }.Ends :=
          ⟨h₁.course, h₁.sound.tail (hrefilled.pending_eq.trans hp) hchunk s₁.cursor s₁.last⟩
        obtain ⟨s₂, hs₂, h₂, hrefilled₂⟩ := fill_of_ends htail
        have hgets := gets_of_cr (s := s.foreseen) hp hrefilled hchunk hrefilled₂
        exact ⟨_, _, get_of_cr hp hs₁ hchunk hs₂, ⟨h₂.course, hgets.sound⟩, hgets⟩
      · have hgets := gets_of_ne_cr (s := s.foreseen) hp hrefilled hchunk hb
        exact ⟨_, _, get_of_ne_cr hp hs₁ hchunk hb, ⟨h₁.course, hgets.sound⟩, hgets⟩
  · have hgets := gets_of_pending (s := s.foreseen) h.sound hp
    exact ⟨_, _, get_of_pending hp, ⟨h.course, hgets.sound⟩, hgets⟩

theorem peek_of_ends {s : Source} (h : s.Ends) :
    ∃ byte s', s.peek = (.ok byte, s') ∧ s'.Ends ∧ s.foreseen.Peeks byte s'.foreseen := by
  rcases hp : s.pending with _ | p
  · obtain ⟨byte, s₁, hget, h₁, hgets⟩ := get_of_ends h
    obtain ⟨hsound, hrest, hnext⟩ := hgets.unget
    have hpeeks : s.foreseen.Peeks byte { s₁.unget byte with last := s.last }.foreseen :=
      ⟨⟨hsound.lively, hsound.size_pos, hsound.raw_of_exhausted, hsound.cursor_of_pending,
        hsound.raw_of_pending⟩, hgets.byte_eq, hrest, hnext, rfl, hgets.total_eq⟩
    exact ⟨_, _, peek_of_get hp hget, ⟨h₁.course, hpeeks.sound⟩, hpeeks⟩
  · have hbyte := (gets_of_pending (s := s.foreseen) h.sound hp).byte_eq
    exact ⟨_, _, peek_of_pending hp, h, h.sound, hbyte, rfl, rfl, rfl, rfl⟩

/-! ### Two sources with the same text -/

structure Alongside (s t : Source) : Prop where
  left : s.Ends
  right : t.Ends
  rest_eq : s.foreseen.rest = t.foreseen.rest
  next_eq : s.foreseen.next = t.foreseen.next
  last_eq : s.last = t.last
  total_eq : s.foreseen.total = t.foreseen.total

theorem Alongside.get {s t : Source} (h : s.Alongside t) :
    ∃ byte s' t', s.get = (.ok byte, s') ∧ t.get = (.ok byte, t') ∧ s'.Alongside t' ∧
      (byte = none → s'.bytesRead = t'.bytesRead) := by
  obtain ⟨byte, s', hs, hs', hgets⟩ := get_of_ends h.left
  obtain ⟨byte', t', ht, ht', hgets'⟩ := get_of_ends h.right
  obtain rfl : byte = byte' := by rw [hgets.byte_eq, hgets'.byte_eq, h.rest_eq]
  have hrest : s'.foreseen.rest = t'.foreseen.rest := by
    rw [hgets.rest_eq, hgets'.rest_eq, h.rest_eq]
  have htotal : s'.foreseen.total = t'.foreseen.total := by
    rw [hgets.total_eq, hgets'.total_eq, h.total_eq]
  refine ⟨byte, s', t', hs, ht, ⟨hs', ht', hrest, ?_, ?_, htotal⟩, ?_⟩
  · rw [next, hgets.pending_eq, next, hgets'.pending_eq]
    show s'.foreseen.cursor = t'.foreseen.cursor
    rw [hgets.cursor_eq, hgets'.cursor_eq, h.next_eq]
  · exact hgets.last_eq.trans (h.next_eq.trans hgets'.last_eq.symm)
  · rintro rfl
    have hnil : s'.foreseen.rest = [] := by
      rw [hgets.rest_eq, List.head?_eq_none_iff.mp hgets.byte_eq.symm]
      rfl
    have hread := bytesRead_of_rest_eq_nil hgets.pending_eq hnil
    have hread' := bytesRead_of_rest_eq_nil hgets'.pending_eq (hrest ▸ hnil)
    exact hread.trans (htotal.trans hread'.symm)

theorem Alongside.peek {s t : Source} (h : s.Alongside t) :
    ∃ byte s' t', s.peek = (.ok byte, s') ∧ t.peek = (.ok byte, t') ∧ s'.Alongside t' := by
  obtain ⟨byte, s', hs, hs', hpeeks⟩ := peek_of_ends h.left
  obtain ⟨byte', t', ht, ht', hpeeks'⟩ := peek_of_ends h.right
  obtain rfl : byte = byte' := by rw [hpeeks.byte_eq, hpeeks'.byte_eq, h.rest_eq]
  refine ⟨byte, s', t', hs, ht, hs', ht', ?_, ?_, ?_, ?_⟩
  · rw [hpeeks.rest_eq, hpeeks'.rest_eq, h.rest_eq]
  · rw [hpeeks.next_eq, hpeeks'.next_eq, h.next_eq]
  · exact hpeeks.last_eq.trans (h.last_eq.trans hpeeks'.last_eq.symm)
  · rw [hpeeks.total_eq, hpeeks'.total_eq, h.total_eq]

def alongside : feed.Simulation feed where
  Between := Alongside
  Behind := Alongside
  AtEnd s t := s.bytesRead = t.bytesRead
  Failed _ _ _ := False
  get_byte := by
    intro s s' t b h hget
    obtain ⟨byte, s₁, t', hs, ht, hnew, -⟩ := h.get
    obtain ⟨hbyte, rfl⟩ := Prod.mk.inj (hs.symm.trans hget)
    obtain rfl := Except.ok.inj hbyte
    exact ⟨t', ht, hnew⟩
  get_end := by
    intro s s' t h hget
    obtain ⟨byte, s₁, t', hs, ht, -, hread⟩ := h.get
    obtain ⟨hbyte, rfl⟩ := Prod.mk.inj (hs.symm.trans hget)
    obtain rfl := Except.ok.inj hbyte
    exact ⟨t', ht, hread rfl⟩
  get_fault := by
    intro s s' t f h hget
    obtain ⟨byte, s₁, t', hs, -⟩ := h.get
    exact absurd (hs.symm.trans hget) (by simp)
  peek_ok := by
    intro s s' t next h hpeek
    obtain ⟨byte, s₁, t', hs, ht, hnew⟩ := h.peek
    obtain ⟨hbyte, rfl⟩ := Prod.mk.inj (hs.symm.trans hpeek)
    obtain rfl := Except.ok.inj hbyte
    exact ⟨t', ht, hnew⟩
  peek_fault := by
    intro s s' t f h hpeek
    obtain ⟨byte, s₁, t', hs, -⟩ := h.peek
    exact absurd (hs.symm.trans hpeek) (by simp)
  position_eq h := h.last_eq
  between h := h

end Source

/-- **Only what the reader hands out matters.**  Two readers that hand out the same bytes, and then
nothing, give the same result and the same writes. -/
theorem minifyStream_of_course (o : Options) {size size' : Nat} {r r' : Reader} (w : Writer)
    (hr : (r.course (max size 1)).2 = none)
    (heq : r'.course (max size' 1) = r.course (max size 1)) :
    (minifyStream o size r w).result = (minifyStream o size' r' w).result ∧
      (minifyStream o size r w).writer = (minifyStream o size' r' w).writer := by
  have halong : (Source.ofReader r size).Alongside (Source.ofReader r' size') := by
    refine ⟨Source.ends_ofReader hr, Source.ends_ofReader (heq ▸ hr), ?_, rfl, rfl, ?_⟩
    · exact congrArg (fun c : Bytes × Option Fault => unifyBreaks c.1) heq.symm
    · exact congrArg (fun c : Bytes × Option Fault => 0 + c.1.length) heq.symm
  obtain ⟨hresult, hwriter, hleft⟩ :=
    Source.alongside.run o .initial .first { writer := w } halong
  rw [minifyStream, minifyStream, run_eq_outcome, run_eq_outcome]
  refine ⟨?_, hwriter⟩
  simp only [Ending.outcome]
  rw [← hresult]
  rcases hleft with ⟨f, -, hfalse⟩ | hread | ⟨herror, -⟩
  · exact absurd hfalse id
  · rw [show (Source.feed.run o .initial .first (.ofReader r size) { writer := w }).source.bytesRead
        = (Source.feed.run o .initial .first (.ofReader r' size') { writer := w }).source.bytesRead
      from hread]
  · cases hcase : (Source.feed.run o .initial .first (.ofReader r size) { writer := w }).result with
    | ok n => exact absurd hcase (herror n)
    | error e => rfl

/-! ### The calls on record -/

namespace Reader.Reads

variable {r r' : Reader} {size : Nat} {ds : List Delivery}

theorem history_eq (h : r.Reads size ds r') : r'.history = ds.reverse ++ r.history := by
  induction h with
  | nil => rfl
  | @call ds r' h ih =>
    rw [Reader.history_read, ih, List.reverse_append]
    rfl

theorem concat_inv {d : Delivery} (h : r.Reads size (ds ++ [d]) r') :
    ∃ r₁, r.Reads size ds r₁ ∧ d = .of (r₁.read size).1 ∧ r' = (r₁.read size).2 := by
  generalize hds : ds ++ [d] = all at h
  cases h with
  | nil => exact absurd hds (by simp)
  | @call ds' r₁ h =>
    obtain ⟨rfl, hlast⟩ := List.append_inj' hds rfl
    exact ⟨r₁, h, by simpa using hlast, rfl⟩

/-- **The course begins with what the calls gave.** -/
theorem exists_gone (h : r.Reads size ds r') (hds : ∀ d ∈ ds, d.GoesOn) :
    ∃ gone, r.bytes = gone ++ r'.bytes ∧ gone.length = (ds.map Delivery.size).sum ∧
      r.course size = (gone ++ (r'.course size).1, (r'.course size).2) := by
  induction h with
  | nil => exact ⟨[], rfl, rfl, rfl⟩
  | @call ds r₁ h ih =>
    obtain ⟨gone, hbytes, hlength, hcourse⟩ := ih fun d hd => hds d (List.mem_append_left _ hd)
    have hlast := hds _ (List.mem_append_right ds (List.mem_singleton_self _))
    rcases hread : r₁.read size with ⟨f | given, r₂⟩
    all_goals rw [hread] at hlast
    · have hf : f.interrupts = true := hlast
      refine ⟨gone, ?_, ?_, ?_⟩
      · rw [hbytes, bytes_of_read_error hread]
      · rw [hlength, List.map_append, List.sum_append]
        rfl
      · rw [hcourse, course_of_error hread, if_pos hf]
    · have hgiven : given ≠ [] := List.ne_nil_of_length_pos hlast
      refine ⟨gone ++ given, ?_, ?_, ?_⟩
      · rw [hbytes, ← append_bytes_of_read hread, List.append_assoc]
      · rw [List.length_append, hlength, List.map_append, List.sum_append]
        rfl
      · rw [hcourse, course_of_chunk hread hgiven, List.append_assoc]

end Reader.Reads

namespace Indexed

open ReadCall (handed Timely)

/-! ### No call behind the end -/

structure Closed (calls : List ReadCall) (x : Indexed) : Prop where
  exhausted_eq : x.exhausted = true
  calls_eq : x.calls = calls

namespace Closed

variable {calls : List ReadCall} {x : Indexed}

theorem expect (h : x.Closed calls) (holds : Bool) (slip : Slip) :
    (x.expect holds slip).Closed calls := by
  unfold Indexed.expect
  split
  · exact h
  · exact ⟨h.exhausted_eq, h.calls_eq⟩

theorem advance (h : x.Closed calls) : x.advance.Closed calls := ⟨h.exhausted_eq, h.calls_eq⟩

theorem fill (h : x.Closed calls) : x.fill.2 = x := by
  unfold Indexed.fill
  rw [h.exhausted_eq]
  split <;> rfl

theorem nextRaw (h : x.Closed calls) : x.nextRaw.2.Closed calls := by
  have hfill := h.fill
  unfold Indexed.nextRaw
  rcases hx : x.fill with ⟨f | _ | _, x₁⟩
  all_goals
    rw [hx] at hfill
    obtain rfl : x₁ = x := hfill
  · exact h
  · exact h
  · exact (h.expect _ _).advance

theorem pairLf (h : x.Closed calls) : x.pairLf.2.Closed calls := by
  have hfill := h.fill
  unfold Indexed.pairLf peekRaw
  rcases hx : x.fill with ⟨f | _ | _, x₁⟩
  all_goals
    rw [hx] at hfill
    obtain rfl : x₁ = x := hfill
  · exact h
  · exact h
  · dsimp only
    split
    · exact (h.expect _ _).advance
    · exact h.expect _ _

theorem get (h : x.Closed calls) : x.get.2.Closed calls := by
  unfold Indexed.get
  split
  · exact ⟨h.exhausted_eq, h.calls_eq⟩
  · have h₁ := h.nextRaw
    rcases hnext : x.nextRaw with ⟨f | _ | b, x₁⟩
    all_goals rw [hnext] at h₁
    · exact h₁
    · exact ⟨h₁.exhausted_eq, h₁.calls_eq⟩
    · have h₂ := h₁.pairLf
      dsimp only
      split
      · split
        next hpair =>
          rw [hpair] at h₂
          exact h₂
        next hpair =>
          rw [hpair] at h₂
          exact ⟨h₂.exhausted_eq, h₂.calls_eq⟩
      · exact ⟨h₁.exhausted_eq, h₁.calls_eq⟩

theorem unget (h : x.Closed calls) (byte : Option Byte) : (x.unget byte).Closed calls := by
  have hexpect := h.expect x.pending.isNone .occupied
  exact ⟨hexpect.exhausted_eq, hexpect.calls_eq⟩

theorem peek (h : x.Closed calls) : x.peek.2.Closed calls := by
  unfold Indexed.peek
  split
  · exact h.expect false .again
  · have h₁ := h.get
    split
    next hget =>
      rw [hget] at h₁
      exact h₁
    next byte x₁ hget =>
      rw [hget] at h₁
      have hunget := h₁.unget byte
      exact ⟨hunget.exhausted_eq, hunget.calls_eq⟩

/-- **Behind the end the reader is not called**, whatever is asked for. -/
theorem perform (h : x.Closed calls) (got : Option Byte) (more : List Call) :
    (feed.perform got more x).2.Closed calls := by
  induction more generalizing got x with
  | nil => exact h
  | cons c more ih =>
    cases c with
    | get =>
      have h₁ := h.get
      simp only [Feed.perform]
      split
      next hget =>
        rw [show x.get = _ from hget] at h₁
        exact h₁
      next hget =>
        rw [show x.get = _ from hget] at h₁
        exact ih h₁ _
    | peek =>
      have h₁ := h.peek
      simp only [Feed.perform]
      split
      next hpeek =>
        rw [show x.peek = _ from hpeek] at h₁
        exact h₁
      next hpeek =>
        rw [show x.peek = _ from hpeek] at h₁
        exact ih h₁ _
    | unget => exact ih (h.unget got) got

end Closed

/-! ### Runs -/

namespace Recorded

variable {r : Reader} {size : Nat} {x : Indexed} {d : Delivery}

theorem timely {ending : List Delivery} (h : x.Recorded r size ending) (hone : ending.length ≤ 1) :
    Timely x.calls ∧ ∀ c ∈ x.calls.dropLast, c.gave.GoesOn := by
  obtain ⟨front, hcalls, hgoes, htimely, hhanded⟩ := h.exists_front
  rw [hcalls]
  match ending, hone with
  | [], _ =>
    rw [List.map_nil, List.append_nil]
    exact ⟨htimely, fun c hc => hgoes c ((List.dropLast_sublist front).subset hc)⟩
  | [d], _ =>
    rw [List.map_singleton, List.dropLast_concat]
    exact ⟨htimely.concat hhanded.symm, hgoes⟩

theorem mem_ending {ending : List Delivery} (h : x.Recorded r size ending) {c : ReadCall}
    (hc : c ∈ x.calls) (hstop : ¬ c.gave.GoesOn) : c.gave ∈ ending := by
  obtain ⟨front, hcalls, hgoes, -⟩ := h.exists_front
  rw [hcalls, List.mem_append] at hc
  rcases hc with hfront | hlast
  · exact absurd (hgoes c hfront) hstop
  · obtain ⟨d, hd, rfl⟩ := List.mem_map.mp hlast
    exact hd

theorem handed_eq (h : x.Recorded r size [.bytes 0]) : handed x.calls = x.bytesRead := by
  obtain ⟨front, hcalls, -, -, hhanded⟩ := h.exists_front
  rw [hcalls, ReadCall.handed_append, hhanded]
  rfl

/-- **Behind a call that gives nothing the bytes handed out are all there is.** -/
theorem course_eq (h : x.Recorded r size [.bytes 0]) :
    r.course (max size 1) = (r.bytes.take (handed x.calls), none) := by
  obtain ⟨front, hcalls, hgoes, -, hhanded⟩ := h.exists_front
  have hreads := h.reads
  rw [hcalls, List.map_append] at hreads
  obtain ⟨r₁, hfront, hlast, -⟩ := hreads.concat_inv
  obtain ⟨gone, hbytes, hlength, hcourse⟩ := hfront.exists_gone (by simpa using hgoes)
  have hnil : r₁.course (max size 1) = ([], none) := by
    rcases hread : r₁.read (max size 1) with ⟨f | given, r₂⟩
    all_goals rw [hread] at hlast
    · cases hlast
    · obtain rfl : given = [] := List.length_eq_zero_iff.mp (Delivery.bytes.inj hlast).symm
      exact Reader.course_of_end hread
  have hgone : gone.length = handed x.calls := by
    rw [h.handed_eq, ← hhanded, hlength, List.map_map]
    rfl
  rw [hcourse, hnil, hbytes, ← hgone, List.take_left, List.append_nil]

end Recorded

/-- **Every run ends in one of three ways**: by a fault of the reader, behind its end, or before
either. -/
theorem ending_run (o : Options) (size : Nat) (r : Reader) (w : Writer) :
    (∃ f, (run o size r w).result = .error (.stream f) ∧
        (run o size r w).source.Recorded r size [.fault f]) ∨
      ((run o size r w).source.exhausted = true ∧
        (run o size r w).source.Recorded r size [.bytes 0]) ∨
      ((∀ n, (run o size r w).result ≠ .ok n) ∧
        (run o size r w).source.Recorded r size []) := by
  rcases (alike_run o size r w).left with
    ⟨f, hresult, -, hx, -⟩ | ⟨-, hx, -, hend⟩ | ⟨herror, -, hx, -⟩
  · exact .inl ⟨f, hresult, hx.recorded⟩
  · have hrecorded := hx.recorded
    rw [hend] at hrecorded
    exact .inr (.inl ⟨hend, hrecorded⟩)
  · have hrecorded := hx.recorded
    cases hend : (run o size r w).source.exhausted with
    | true =>
      rw [hend] at hrecorded
      exact .inr (.inl ⟨rfl, hrecorded⟩)
    | false =>
      rw [hend] at hrecorded
      exact .inr (.inr ⟨herror, hrecorded⟩)

theorem recorded_run (o : Options) (size : Nat) (r : Reader) (w : Writer) :
    ∃ ending, ending.length ≤ 1 ∧ (run o size r w).source.Recorded r size ending := by
  rcases ending_run o size r w with ⟨f, -, h⟩ | ⟨-, h⟩ | ⟨-, h⟩
  · exact ⟨[.fault f], Nat.le_refl 1, h⟩
  · exact ⟨[.bytes 0], Nat.le_refl 1, h⟩
  · exact ⟨[], Nat.zero_le 1, h⟩

theorem recorded_of_end {o : Options} {size : Nat} {r : Reader} {w : Writer} {c : ReadCall}
    (hc : c ∈ (run o size r w).source.calls) (hgave : c.gave = .bytes 0) :
    (run o size r w).source.exhausted = true ∧
      (run o size r w).source.Recorded r size [.bytes 0] := by
  have hstop : ¬ c.gave.GoesOn := by
    rw [hgave]
    exact Nat.lt_irrefl 0
  rcases ending_run o size r w with ⟨f, -, h⟩ | h | ⟨-, h⟩
  · have hmem := h.mem_ending hc hstop
    rw [hgave, List.mem_singleton] at hmem
    cases hmem
  · exact h
  · exact absurd (h.mem_ending hc hstop) List.not_mem_nil

theorem result_of_fault {o : Options} {size : Nat} {r : Reader} {w : Writer} {c : ReadCall}
    {f : Fault} (hc : c ∈ (run o size r w).source.calls) (hgave : c.gave = .fault f)
    (hf : f.interrupts = false) : (run o size r w).result = .error (.stream f) := by
  have hstop : ¬ c.gave.GoesOn := by
    rw [hgave]
    simpa [Delivery.GoesOn] using hf
  rcases ending_run o size r w with ⟨f', hresult, h⟩ | ⟨-, h⟩ | ⟨-, h⟩
  · have hmem := h.mem_ending hc hstop
    rw [hgave, List.mem_singleton] at hmem
    rw [hresult, Delivery.fault.inj hmem]
  · have hmem := h.mem_ending hc hstop
    rw [hgave, List.mem_singleton] at hmem
    cases hmem
  · exact absurd (h.mem_ending hc hstop) List.not_mem_nil

theorem recorded_of_ok {o : Options} {size : Nat} {r : Reader} {w : Writer} {n : Nat}
    (hresult : (run o size r w).result = .ok n) :
    (run o size r w).source.Recorded r size [.bytes 0] := by
  rcases ending_run o size r w with ⟨f, herror, -⟩ | ⟨-, h⟩ | ⟨herror, -⟩
  · rw [hresult] at herror
    cases herror
  · exact h
  · exact absurd hresult (herror n)

/-- How the calls of the reader stand to the result of a run. -/
structure InTurn (o : Options) (size : Nat) (r : Reader) (w : Writer) (e : Ending Indexed) :
    Prop where
  /-- The calls on record are all the calls. -/
  history_eq : (minifyStream o size r w).reader.history
    = (e.source.calls.map ReadCall.gave).reverse ++ r.history
  /-- The reader is not called again once it gave nothing or failed for good. -/
  goesOn : ∀ c ∈ e.source.calls.dropLast, c.gave.GoesOn
  /-- It is called only when all that it handed out was taken. -/
  timely : Timely e.source.calls
  /-- A fault that is no interruption is the result. -/
  fault : ∀ c ∈ e.source.calls, ∀ f, c.gave = .fault f → f.interrupts = false →
    (minifyStream o size r w).result = .error (.stream f)
  /-- Once it gave nothing, all goes as if the bytes handed out were the whole input. -/
  ends : ∀ c ∈ e.source.calls, c.gave = .bytes 0 → ∀ (size' : Nat) (r' : Reader), r'.Steady →
    r'.bytes = r.bytes.take (handed e.source.calls) →
      (minifyStream o size r w).result = (minifyStream o size' r' w).result ∧
        (minifyStream o size r w).writer = (minifyStream o size' r' w).writer
  /-- Then it would not be called either, whatever was asked for next. -/
  closed : ∀ c ∈ e.source.calls, c.gave = .bytes 0 → ∀ (got : Option Byte) (more : List Call),
    (feed.perform got more e.source).2.calls = e.source.calls
  /-- A run without faults ends with the one call that gives nothing. -/
  ok : ∀ stats, (minifyStream o size r w).result = .ok stats →
    ∃ earlier taken, e.source.calls = earlier ++ [⟨taken, .bytes 0⟩] ∧
      (∀ c ∈ earlier, c.gave ≠ .bytes 0) ∧ stats.bytesRead = handed e.source.calls

end Indexed

/-- **A run calls its reader in turn.**  The run by indices is the run over the streams, and its
record shows the calls. -/
theorem minifyStream_reads_in_turn (o : Options) (size : Nat) (r : Reader) (w : Writer) :
    ((Indexed.run o size r w).map Indexed.toSource).outcome = minifyStream o size r w ∧
      Indexed.InTurn o size r w (Indexed.run o size r w) := by
  have houtcome := Indexed.outcome_run o size r w
  obtain ⟨ending, hone, hrecorded⟩ := Indexed.recorded_run o size r w
  obtain ⟨htimely, hgoes⟩ := hrecorded.timely hone
  refine ⟨houtcome, ?_, hgoes, htimely, ?_, ?_, ?_, ?_⟩
  · rw [← houtcome]
    exact hrecorded.reads.history_eq
  · intro c hc f hgave hf
    rw [← houtcome, Ending.outcome, Ending.map, Indexed.result_of_fault hc hgave hf]
    rfl
  · intro c hc hgave size' r' hr' hbytes
    have hcourse := (Indexed.recorded_of_end hc hgave).2.course_eq
    have hsteady : r'.course (max size' 1) = (r'.bytes, none) :=
      Reader.course_of_steady hr' (Nat.lt_of_lt_of_le Nat.one_pos (Nat.le_max_right size' 1))
    exact minifyStream_of_course o w (by rw [hcourse]) (by rw [hsteady, hcourse, hbytes])
  · intro c hc hgave got more
    have hend := (Indexed.recorded_of_end hc hgave).1
    exact (Indexed.Closed.perform ⟨hend, rfl⟩ got more).calls_eq
  · intro stats hstats
    rw [← houtcome] at hstats
    rcases hresult : (Indexed.run o size r w).result with e | n
    · simp [Ending.outcome, Ending.map, hresult, Except.map] at hstats
    · have hzero := Indexed.recorded_of_ok hresult
      obtain ⟨front, hcalls, hfront, -⟩ := hzero.exists_front
      refine ⟨front, _, hcalls, ?_, ?_⟩
      · intro c hc hgave
        have hpos := hfront c hc
        rw [hgave] at hpos
        exact absurd hpos (Nat.lt_irrefl 0)
      · rw [hzero.handed_eq]
        simp only [Ending.outcome, Ending.map, hresult, Except.map] at hstats
        rw [← Except.ok.inj hstats]
        rfl

end ScriptMinifier.Stream
