import ScriptMinifier.Stream.Sink
import ScriptMinifier.Proofs.Stream.Cursor

/-!
# A sink is the list of the bytes put into it

What was put into a sink is either accepted by the writer or still in the buffer.  Sending the
buffer on moves bytes from the one to the other and loses none (`Writer.drain_conserves`), whatever
the writer does.  A steady writer takes every buffer to the end, so nothing that is put into a sink
on it can fail, and all of it arrives (`Sink.accepted_abandon`).

* `Sink.contents`: the bytes put into a sink, in order.
* `Sink.putAll_eq_ok`: putting bytes appends them.
* `Sink.putAll_of_steady`, `Sink.flush_of_steady`: with a steady writer no call fails.
-/

namespace ScriptMinifier.Stream

/-! ### Writers -/

namespace Writer

theorem write_eq_ok {w w' : Writer} {bytes : Bytes} {n : Nat} (h : w.write bytes = (.ok n, w')) :
    w'.accepted.toList ++ bytes.drop n = w.accepted.toList ++ bytes := by
  unfold write at h
  split at h
  next => cases h
  next =>
    split at h
    next =>
      cases h
      simp [accept]
    next n script hscript =>
      cases h
      simp [accept]
    next => cases h

theorem write_eq_error {w w' : Writer} {bytes : Bytes} {f : Fault}
    (h : w.write bytes = (.error f, w')) : w'.accepted = w.accepted := by
  unfold write at h
  split at h
  next => cases h; rfl
  next =>
    split at h
    next => cases h
    next => cases h
    next => cases h; rfl

/-- **Draining loses no byte**: what is not accepted comes back. -/
theorem drain_conserves (w : Writer) (bytes : Bytes) :
    (w.drain bytes).2.2.accepted.toList ++ (w.drain bytes).2.1 = w.accepted.toList ++ bytes := by
  fun_induction drain w bytes with
  | case1 w => rfl
  | case2 w bytes hbytes f w' hwrite hretry ih => rw [ih, write_eq_error hwrite]
  | case3 w bytes hbytes f w' hwrite hretry => rw [write_eq_error hwrite]
  | case4 w bytes hbytes w' hwrite =>
    have := write_eq_ok hwrite
    rwa [List.drop_zero] at this
  | case5 w bytes hbytes n w' hwrite hn ih => rw [ih, write_eq_ok hwrite]

/-- The writer accepts something in every call that is not interrupted, and can be flushed. -/
structure Steady (w : Writer) : Prop where
  stuck : w.stuck = none
  flushFault : w.flushFault = none
  script : ∀ e ∈ w.script, e.Lively ∧ e.Calm

theorem Steady.of_write {w w' : Writer} {bytes : Bytes} {result : Except Fault Nat} (h : w.Steady)
    (hwrite : w.write bytes = (result, w')) :
    w'.Steady ∧ (∀ f, result = .error f → f.interrupts = true) ∧
      (bytes ≠ [] → result ≠ .ok 0) := by
  have htail {e : Event} {script : List Event} (hscript : w.script = e :: script) :
      ∀ e' ∈ script, e'.Lively ∧ e'.Calm :=
    fun e' he => h.script e' (hscript ▸ List.mem_cons_of_mem e he)
  unfold write at hwrite
  split at hwrite
  next f hstuck =>
    rw [h.stuck] at hstuck
    cases hstuck
  next hstuck =>
  split at hwrite
  next =>
    cases hwrite
    exact ⟨⟨hstuck, h.flushFault, h.script⟩, by simp, by simp⟩
  next n script hscript =>
    cases hwrite
    have hn : 0 < n := (h.script (.limit n) (by simp [hscript])).1
    refine ⟨⟨hstuck, h.flushFault, htail hscript⟩, by simp, fun hbytes hzero => ?_⟩
    have hpos := List.length_pos_iff.mpr hbytes
    have := Except.ok.inj hzero
    omega
  next f script hscript =>
    cases hwrite
    have hf : f.interrupts = true := (h.script (.fault f) (by simp [hscript])).2
    refine ⟨⟨if_pos hf, h.flushFault, htail hscript⟩, ?_, by simp⟩
    rintro f' hf'
    cases hf'
    exact hf

/-- **A steady writer takes all of a buffer.** -/
theorem Steady.drain {w : Writer} (h : w.Steady) (bytes : Bytes) :
    ∃ w', w.drain bytes = (.ok (), [], w') ∧ w'.Steady := by
  fun_induction Writer.drain w bytes with
  | case1 w => exact ⟨w, rfl, h⟩
  | case2 w bytes hbytes f w' hwrite hretry ih => exact ih (h.of_write hwrite).1
  | case3 w bytes hbytes f w' hwrite hretry =>
    exact absurd ⟨(h.of_write hwrite).2.1 f rfl, h.stuck⟩ hretry
  | case4 w bytes hbytes w' hwrite => exact absurd rfl ((h.of_write hwrite).2.2 hbytes)
  | case5 w bytes hbytes n w' hwrite hn ih => exact ih (h.of_write hwrite).1

end Writer

/-! ### Sinks -/

namespace Sink

def contents (s : Sink) : Bytes := s.writer.accepted.toList ++ s.buffer.toList

theorem contents_drain (s : Sink) : s.drain.2.contents = s.contents := by
  rw [contents, contents, ← s.writer.drain_conserves s.buffer.toList]
  rfl

theorem makeRoom_eq_ok {s s' : Sink} (h : s.makeRoom = (.ok (), s')) :
    s'.contents = s.contents ∧ s'.written = s.written := by
  unfold makeRoom at h
  split at h
  next =>
    cases h
    exact ⟨rfl, rfl⟩
  next =>
    have hcontents := s.contents_drain
    rw [h] at hcontents
    refine ⟨hcontents, ?_⟩
    have hs' : s.drain.2 = s' := by rw [h]
    rw [← hs']
    rfl

/-- **Putting bytes appends them.** -/
theorem putAll_eq_ok {s s' : Sink} {bytes : Bytes} (h : s.putAll bytes = (.ok (), s')) :
    s'.contents = s.contents ++ bytes ∧ s'.written = s.written + bytes.length := by
  induction bytes generalizing s with
  | nil =>
    cases h
    simp
  | cons b bytes ih =>
    rw [putAll, put] at h
    cases hroom : s.makeRoom with
    | mk result s₁ =>
      rw [hroom] at h
      cases result with
      | error f => cases h
      | ok u =>
        obtain ⟨hcontents, hwritten⟩ := makeRoom_eq_ok hroom
        obtain ⟨hcontents', hwritten'⟩ := ih h
        rw [hcontents', hwritten', ← hcontents, ← hwritten]
        constructor
        · simp [contents]
        · simp only [List.length_cons]
          omega

theorem drain_of_steady {s : Sink} (h : s.writer.Steady) :
    ∃ s', s.drain = (.ok (), s') ∧ s'.writer.Steady ∧ s'.buffer = #[] ∧ s'.written = s.written := by
  obtain ⟨w', hdrain, hsteady⟩ := h.drain s.buffer.toList
  rw [drain, hdrain]
  exact ⟨_, rfl, hsteady, rfl, rfl⟩

/-- **With a steady writer every byte can be put.** -/
theorem putAll_of_steady {s : Sink} (h : s.writer.Steady) (bytes : Bytes) :
    ∃ s', s.putAll bytes = (.ok (), s') ∧ s'.writer.Steady := by
  induction bytes generalizing s with
  | nil => exact ⟨s, rfl, h⟩
  | cons b bytes ih =>
    have hroom : ∃ s₁, s.makeRoom = (.ok (), s₁) ∧ s₁.writer.Steady := by
      rw [makeRoom]
      split
      · exact ⟨s, rfl, h⟩
      · obtain ⟨s₁, hdrain, hsteady, -⟩ := drain_of_steady h
        exact ⟨s₁, hdrain, hsteady⟩
    obtain ⟨s₁, hroom, hsteady⟩ := hroom
    rw [putAll, put, hroom]
    exact ih hsteady

/-- **With a steady writer the sink can be flushed**, and then all of it is accepted. -/
theorem flush_of_steady {s : Sink} (h : s.writer.Steady) :
    ∃ s', s.flush = (.ok (), s') ∧ s'.writer.Steady ∧ s'.contents = s.contents ∧
      s'.written = s.written := by
  obtain ⟨s₁, hdrain, hsteady, -, hwritten⟩ := drain_of_steady h
  have hcontents := s.contents_drain
  rw [hdrain] at hcontents
  rw [flush, hdrain]
  simp only [Writer.flush, hsteady.flushFault]
  exact ⟨_, rfl, ⟨hsteady.stuck, rfl, hsteady.script⟩, hcontents, hwritten⟩

/-- **A steady writer gets all that was put**, also when the sink is given up. -/
theorem accepted_abandon {s : Sink} (h : s.writer.Steady) :
    s.abandon.accepted.toList = s.contents := by
  obtain ⟨s₁, hdrain, -, hbuffer, -⟩ := drain_of_steady h
  have hcontents := s.contents_drain
  rw [hdrain, contents, hbuffer] at hcontents
  rw [abandon, hdrain, ← hcontents]
  simp

end Sink

end ScriptMinifier.Stream
