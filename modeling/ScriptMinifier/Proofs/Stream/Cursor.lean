import ScriptMinifier.Stream.Source

/-!
# A source is a cursor over the unified text

A source has a chunk, a reader behind it and perhaps a byte that was looked at.  What it still has
to hand out is one text, `Source.rest`, and the position of its first byte is `Source.next`.  Taking
a byte takes the head of that text and looking ahead leaves it, wherever the chunks end: between the
two bytes of a line break, behind a byte that was looked at, or at the end of input.

* `Reader.Lively`: the reader hands out at least one byte in every call until it has none.
* `Reader.Calm`: the reader fails only by being interrupted.
* `Source.get_eq_ok`, `Source.peek_eq_ok`: what a call gives if it gives a byte.
* `Source.get_of_calm`, `Source.peek_of_calm`: with a calm reader it gives one.
-/

namespace ScriptMinifier

namespace Stream

/-! ### Readers -/

def Event.Lively : Event → Prop
  | .limit n => 0 < n
  | .fault _ => True

def Event.Calm : Event → Prop
  | .limit _ => True
  | .fault f => f.interrupts = true

namespace Reader

/-- Every call that does not fail hands out a byte, as long as there is one. -/
structure Lively (r : Reader) : Prop where
  script : ∀ e ∈ r.script, e.Lively
  limit : ∀ n, r.limit = some n → 0 < n

def Calm (r : Reader) : Prop := ∀ e ∈ r.script, e.Calm

theorem script_readThrough (r : Reader) (size : Nat) :
    (r.readThrough size).2.script <:+ r.script ∧ (r.readThrough size).2.limit = r.limit := by
  have hread (r : Reader) :
      (r.read size).2.script <:+ r.script ∧ (r.read size).2.limit = r.limit := by
    unfold read
    split
    next f script hscript =>
      rw [hscript]
      exact ⟨List.suffix_cons (.fault f) script, rfl⟩
    next n script hscript =>
      rw [hscript]
      refine ⟨?_, rfl⟩
      show script <:+ .limit n :: script
      exact List.suffix_cons (.limit n) script
    next hscript => exact ⟨List.suffix_refl _, rfl⟩
  fun_induction readThrough r size with
  | case1 r f script hscript hf ih =>
    rw [hscript]
    exact ⟨ih.1.trans (List.suffix_cons (.fault f) script), ih.2⟩
  | case2 r f script hscript hf => exact hread r
  | case3 r hscript => exact hread r

theorem Lively.readThrough {r : Reader} (h : r.Lively) (size : Nat) :
    (r.readThrough size).2.Lively := by
  obtain ⟨hscript, hlimit⟩ := script_readThrough r size
  refine ⟨fun e he => h.script e (hscript.subset he), fun n hn => h.limit n ?_⟩
  rwa [← hlimit]

theorem Calm.readThrough {r : Reader} (h : r.Calm) (size : Nat) : (r.readThrough size).2.Calm :=
  fun e he => h e ((script_readThrough r size).1.subset he)

theorem Lively.bytes_eq_nil {r r' : Reader} {size : Nat} (h : r.Lively) (hsize : 0 < size)
    (hread : r.readThrough size = (.ok [], r')) : r.bytes = [] := by
  have hone (r : Reader) (h : r.Lively) (hread : r.read size = (.ok [], r')) : r.bytes = [] := by
    unfold read at hread
    split at hread
    next => cases hread
    next n script hscript =>
      have hn : 0 < n := h.script (.limit n) (by simp [hscript])
      obtain ⟨htake, -⟩ := Prod.mk.inj hread
      rcases List.take_eq_nil_iff.mp (Except.ok.inj htake) with hzero | hnil
      · omega
      · exact hnil
    next hscript =>
      have hn : 0 < r.limit.getD size := by
        cases hlimit : r.limit with
        | none => exact hsize
        | some n => exact h.limit n hlimit
      obtain ⟨htake, -⟩ := Prod.mk.inj hread
      rcases List.take_eq_nil_iff.mp (Except.ok.inj htake) with hzero | hnil
      · omega
      · exact hnil
  fun_induction Reader.readThrough r size with
  | case1 r f script hscript hf ih =>
    exact ih ⟨fun e he => h.script e (by simp [hscript, he]), h.limit⟩ hread
  | case2 r f script hscript hf => exact hone r h hread
  | case3 r hscript => exact hone r h hread

theorem Calm.exists_ok {r : Reader} (h : r.Calm) (size : Nat) :
    ∃ bytes r', r.readThrough size = (.ok bytes, r') := by
  fun_induction Reader.readThrough r size with
  | case1 r f script hscript hf ih => exact ih fun e he => h e (by simp [hscript, he])
  | case2 r f script hscript hf =>
    have : f.interrupts = true := h (.fault f) (by simp [hscript])
    exact absurd this hf
  | case3 r hscript =>
    unfold read
    split
    next f script hfault => exact absurd hfault (hscript f script)
    next => exact ⟨_, _, rfl⟩
    next => exact ⟨_, _, rfl⟩

end Reader

/-! ### The text that is left -/

namespace Source

def raw (s : Source) : Bytes := s.chunk ++ s.reader.bytes

def rest (s : Source) : Bytes := (s.pending.bind Pending.byte).toList ++ unifyBreaks s.raw

def next (s : Source) : Position := s.pending.elim s.cursor Pending.position

/-- The bytes read so far and those the reader still has. -/
def total (s : Source) : Nat := s.bytesRead + s.reader.bytes.length

def positionAfter (p : Position) (byte : Option Byte) : Position := byte.elim p p.advance

/-- What holds between any two calls.  The cursor stands behind the byte that was looked at, and
where that was the end of input nothing is left. -/
structure Sound (s : Source) : Prop where
  lively : s.reader.Lively
  size_pos : 0 < s.size
  raw_of_exhausted : s.exhausted = true → s.raw = []
  cursor_of_pending : ∀ p, s.pending = some p → s.cursor = positionAfter p.position p.byte
  raw_of_pending : ∀ p, s.pending = some p → p.byte = none → s.raw = []

theorem sound_ofReader {r : Reader} (h : r.Lively) (size : Nat) : (ofReader r size).Sound :=
  ⟨h, Nat.lt_of_lt_of_le Nat.one_pos (Nat.le_max_right size 1), by simp [ofReader],
    by simp [ofReader], by simp [ofReader]⟩

theorem rest_of_pending_none {s : Source} (h : s.pending = none) : s.rest = unifyBreaks s.raw := by
  rw [rest, h]
  rfl

theorem bytesRead_of_rest_eq_nil {s : Source} (hp : s.pending = none) (h : s.rest = []) :
    s.bytesRead = s.total := by
  rw [rest_of_pending_none hp, unifyBreaks_eq_nil_iff, raw, List.append_eq_nil_iff] at h
  rw [total, h.2]
  rfl

/-! ### Filling a chunk -/

/-- Filling changes nothing that can be seen but that the chunk is empty only at the end. -/
structure Refilled (s s' : Source) : Prop where
  sound : s'.Sound
  raw_eq : s'.raw = s.raw
  pending_eq : s'.pending = s.pending
  cursor_eq : s'.cursor = s.cursor
  last_eq : s'.last = s.last
  total_eq : s'.total = s.total
  raw_eq_nil : s'.chunk = [] → s'.raw = []

theorem fill_eq_ok {s s' : Source} (hs : s.Sound) (h : s.fill = (.ok (), s')) : s.Refilled s' := by
  unfold fill at h
  split at h
  next hdone =>
    cases h
    refine ⟨hs, rfl, rfl, rfl, rfl, rfl, fun hchunk => ?_⟩
    rcases hdone with hne | hend
    · exact absurd hchunk hne
    · exact hs.raw_of_exhausted hend
  next hneed =>
    have hchunk : s.chunk = [] := by
      by_cases hc : s.chunk = []
      · exact hc
      · exact absurd (Or.inl hc) hneed
    split at h
    next => cases h
    next chunk reader hread =>
      cases h
      have hbytes := Reader.append_bytes_of_readThrough hread
      have hraw : chunk ++ reader.bytes = s.raw := by rw [hbytes, raw, hchunk, List.nil_append]
      have hlively : reader.Lively := by
        have := hs.lively.readThrough s.size
        rwa [hread] at this
      have hnil (hc : chunk = []) : chunk ++ reader.bytes = [] := by
        rw [hbytes]
        exact hs.lively.bytes_eq_nil hs.size_pos (hc ▸ hread)
      refine ⟨⟨hlively, hs.size_pos, fun hend => ?_, hs.cursor_of_pending, fun p hp hnone => ?_⟩,
        hraw, rfl, rfl, rfl, ?_, hnil⟩
      · exact hnil (List.isEmpty_iff.mp hend)
      · exact hraw.trans (hs.raw_of_pending p hp hnone)
      · have hlen := congrArg List.length hbytes
        rw [List.length_append] at hlen
        simp only [total]
        omega

theorem fill_of_calm {s : Source} (h : s.reader.Calm) :
    ∃ s', s.fill = (.ok (), s') ∧ s'.reader.Calm := by
  unfold fill
  split
  · exact ⟨s, rfl, h⟩
  · obtain ⟨bytes, r', hread⟩ := h.exists_ok s.size
    have hcalm := h.readThrough s.size
    rw [hread] at hcalm ⊢
    exact ⟨_, rfl, hcalm⟩

/-! ### Taking a byte -/

/-- `byte` is the head of what is left, and `s'` has the tail. -/
structure Gets (s : Source) (byte : Option Byte) (s' : Source) : Prop where
  sound : s'.Sound
  byte_eq : byte = s.rest.head?
  rest_eq : s'.rest = s.rest.tail
  pending_eq : s'.pending = none
  cursor_eq : s'.cursor = positionAfter s.next byte
  last_eq : s'.last = s.next
  total_eq : s'.total = s.total

theorem gets_of_pending {s : Source} {p : Pending} (hs : s.Sound) (hp : s.pending = some p) :
    s.Gets p.byte { s with pending := none, last := p.position } := by
  have hrest : s.rest = p.byte.toList ++ unifyBreaks s.raw := by rw [rest, hp]; rfl
  have hnext : s.next = p.position := by rw [next, hp]; rfl
  refine ⟨⟨hs.lively, hs.size_pos, hs.raw_of_exhausted, by simp, by simp⟩, ?_, ?_, rfl, ?_,
    hnext.symm, rfl⟩
  · cases hb : p.byte with
    | none => rw [hrest, hb, hs.raw_of_pending p hp hb]; rfl
    | some b => rw [hrest, hb]; rfl
  · rw [rest_of_pending_none rfl, hrest]
    show unifyBreaks s.raw = _
    cases hb : p.byte with
    | none => rw [hs.raw_of_pending p hp hb]; rfl
    | some b => rfl
  · rw [hnext]
    exact hs.cursor_of_pending p hp

theorem Sound.tail {s : Source} {b : Byte} {chunk : Bytes} (hs : s.Sound) (hp : s.pending = none)
    (hchunk : s.chunk = b :: chunk) (cursor last : Position) :
    { s with chunk, cursor, last }.Sound := by
  refine ⟨hs.lively, hs.size_pos, fun hend => ?_, by simp [hp], by simp [hp]⟩
  have hraw := hs.raw_of_exhausted hend
  rw [raw, hchunk] at hraw
  cases hraw

theorem gets_of_ne_cr {s s₁ : Source} {b : Byte} {chunk : Bytes} (hp : s.pending = none)
    (h₁ : s.Refilled s₁) (hchunk : s₁.chunk = b :: chunk) (hb : b ≠ Byte.cr) :
    s.Gets (some b) { s₁ with chunk, cursor := s.cursor.advance b, last := s.cursor } := by
  have hp₁ : s₁.pending = none := h₁.pending_eq.trans hp
  have hnext : s.next = s.cursor := by rw [next, hp]; rfl
  have hrest : s.rest = b :: unifyBreaks (chunk ++ s₁.reader.bytes) := by
    rw [rest_of_pending_none hp, ← h₁.raw_eq, raw, hchunk, List.cons_append, unifyBreaks_cons hb]
  refine ⟨h₁.sound.tail hp₁ hchunk _ _, ?_, ?_, hp₁, ?_, hnext.symm, h₁.total_eq⟩
  · rw [hrest]; rfl
  · rw [rest_of_pending_none (by exact hp₁), hrest]; rfl
  · rw [hnext]; rfl

/-- **Behind a carriage return the line feed that belongs to it is skipped**, also at the start of
the next chunk. -/
theorem unifyBreaks_cr_raw {s : Source} (h : s.chunk = [] → s.raw = []) :
    unifyBreaks (Byte.cr :: s.raw) = Byte.lf :: unifyBreaks s.skipPairedLf.raw := by
  cases hchunk : s.chunk with
  | nil =>
    have hskip : s.skipPairedLf.raw = s.raw := by simp [skipPairedLf, raw, hchunk]
    rw [hskip, h hchunk]
    rfl
  | cons b chunk =>
    by_cases hb : b = Byte.lf
    · have hskip : s.skipPairedLf.raw = chunk ++ s.reader.bytes := by
        simp [skipPairedLf, raw, hchunk, hb]
      rw [hskip, raw, hchunk, hb, List.cons_append, unifyBreaks_cons_cr_lf]
    · have hskip : s.skipPairedLf.raw = s.raw := by simp [skipPairedLf, raw, hchunk, hb]
      rw [hskip, unifyBreaks_cons_cr (by simpa [raw, hchunk] using hb)]

theorem gets_of_cr {s s₁ s₂ : Source} {chunk : Bytes} (hp : s.pending = none) (h₁ : s.Refilled s₁)
    (hchunk : s₁.chunk = Byte.cr :: chunk) (h₂ : { s₁ with chunk }.Refilled s₂) :
    s.Gets (some Byte.lf)
      { s₂.skipPairedLf with cursor := s.cursor.advance Byte.lf, last := s.cursor } := by
  have hp₂ : s₂.pending = none := (h₂.pending_eq.trans h₁.pending_eq).trans hp
  have hnext : s.next = s.cursor := by rw [next, hp]; rfl
  have hrest : s.rest = Byte.lf :: unifyBreaks s₂.skipPairedLf.raw := by
    rw [rest_of_pending_none hp, ← h₁.raw_eq, ← unifyBreaks_cr_raw h₂.raw_eq_nil, h₂.raw_eq, raw,
      hchunk, List.cons_append]
    rfl
  have hexhausted (hend : s₂.exhausted = true) : s₂.skipPairedLf.raw = [] := by
    have hraw := h₂.sound.raw_of_exhausted hend
    obtain ⟨hc, hr⟩ := List.append_eq_nil_iff.mp hraw
    simp [skipPairedLf, raw, hc, hr]
  refine ⟨⟨h₂.sound.lively, h₂.sound.size_pos, hexhausted, by simp [skipPairedLf, hp₂],
    by simp [skipPairedLf, hp₂]⟩, ?_, ?_, hp₂, ?_, hnext.symm, h₂.total_eq.trans h₁.total_eq⟩
  · rw [hrest]; rfl
  · rw [rest_of_pending_none (by exact hp₂), hrest]; rfl
  · rw [hnext]; rfl

theorem gets_of_end {s s₁ : Source} (hp : s.pending = none) (h₁ : s.Refilled s₁)
    (hchunk : s₁.chunk = []) : s.Gets none { s₁ with last := s.cursor } := by
  have hp₁ : s₁.pending = none := h₁.pending_eq.trans hp
  have hnext : s.next = s.cursor := by rw [next, hp]; rfl
  have hraw₁ := h₁.raw_eq_nil hchunk
  have hrest : s.rest = [] := by rw [rest_of_pending_none hp, ← h₁.raw_eq, hraw₁]; rfl
  refine ⟨⟨h₁.sound.lively, h₁.sound.size_pos, h₁.sound.raw_of_exhausted, by simp [hp₁],
    by simp [hp₁]⟩, ?_, ?_, hp₁, ?_, hnext.symm, h₁.total_eq⟩
  · rw [hrest]; rfl
  · rw [rest_of_pending_none (by exact hp₁), hrest]
    show unifyBreaks s₁.raw = []
    rw [hraw₁]
    rfl
  · rw [hnext]
    exact h₁.cursor_eq

/-- **Taking a byte takes the head of what is left.** -/
theorem get_eq_ok {s s' : Source} {byte : Option Byte} (hs : s.Sound)
    (h : s.get = (.ok byte, s')) : s.Gets byte s' := by
  unfold get at h
  split at h
  next p hp =>
    cases h
    exact gets_of_pending hs hp
  next hp =>
  split at h
  next => cases h
  next s₁ hs₁ =>
  have h₁ := fill_eq_ok hs hs₁
  split at h
  next hchunk =>
    cases h
    exact gets_of_end hp h₁ hchunk
  next b chunk hchunk =>
  split at h
  next hb =>
    subst hb
    split at h
    next => cases h
    next s₂ hs₂ =>
      cases h
      have htail := h₁.sound.tail (h₁.pending_eq.trans hp) hchunk s₁.cursor s₁.last
      exact gets_of_cr hp h₁ hchunk (fill_eq_ok htail hs₂)
  next hb =>
    cases h
    exact gets_of_ne_cr hp h₁ hchunk hb

/-- **With a calm reader a byte, or the end, can always be taken.** -/
theorem get_of_calm {s : Source} (h : s.reader.Calm) :
    ∃ byte s', s.get = (.ok byte, s') ∧ s'.reader.Calm := by
  unfold get
  split
  next p hp => exact ⟨_, _, rfl, h⟩
  next hp =>
  obtain ⟨s₁, hs₁, hcalm₁⟩ := fill_of_calm h
  rw [hs₁]
  dsimp only
  split
  next hchunk => exact ⟨_, _, rfl, hcalm₁⟩
  next b chunk hchunk =>
  split
  next hb =>
    have hcalm : { s₁ with chunk }.reader.Calm := hcalm₁
    obtain ⟨s₂, hs₂, hcalm₂⟩ := fill_of_calm hcalm
    rw [hs₂]
    exact ⟨_, _, rfl, hcalm₂⟩
  next hb => exact ⟨_, _, rfl, hcalm₁⟩

/-! ### Giving back and looking ahead -/

/-- **Giving back undoes taking.** -/
theorem Gets.unget {s s' : Source} {byte : Option Byte} (h : s.Gets byte s') :
    (s'.unget byte).Sound ∧ (s'.unget byte).rest = s.rest ∧ (s'.unget byte).next = s.next := by
  have hraw : unifyBreaks s'.raw = s.rest.tail := by
    rw [← rest_of_pending_none h.pending_eq, h.rest_eq]
  have hcursor : s'.cursor = positionAfter s'.last byte := by
    rw [h.last_eq]
    exact h.cursor_eq
  refine ⟨⟨h.sound.lively, h.sound.size_pos, h.sound.raw_of_exhausted, ?_, ?_⟩, ?_, h.last_eq⟩
  · rintro p hpending
    obtain rfl := Option.some.inj hpending
    exact hcursor
  · -- the end is remembered only if no byte is left
    rintro p hpending hnone
    obtain rfl := Option.some.inj hpending
    have hnil : s.rest = [] := by
      rw [← List.head?_eq_none_iff, ← h.byte_eq]
      exact hnone
    rw [hnil] at hraw
    exact unifyBreaks_eq_nil_iff.mp hraw
  · show byte.toList ++ unifyBreaks s'.raw = s.rest
    rw [hraw, h.byte_eq]
    cases s.rest <;> rfl

/-- `byte` is the head of what is left, and `s'` has all of it. -/
structure Peeks (s : Source) (byte : Option Byte) (s' : Source) : Prop where
  sound : s'.Sound
  byte_eq : byte = s.rest.head?
  rest_eq : s'.rest = s.rest
  next_eq : s'.next = s.next
  last_eq : s'.last = s.last
  total_eq : s'.total = s.total

/-- **Looking ahead takes nothing.** -/
theorem peek_eq_ok {s s' : Source} {byte : Option Byte} (hs : s.Sound)
    (h : s.peek = (.ok byte, s')) : s.Peeks byte s' := by
  unfold peek at h
  split at h
  next p hp =>
    cases h
    exact ⟨hs, (gets_of_pending hs hp).byte_eq, rfl, rfl, rfl, rfl⟩
  next hp =>
  split at h
  next => cases h
  next byte' s₁ hget =>
    cases h
    have hgets := get_eq_ok hs hget
    obtain ⟨hsound, hrest, hnext⟩ := hgets.unget
    exact ⟨⟨hsound.lively, hsound.size_pos, hsound.raw_of_exhausted, hsound.cursor_of_pending,
      hsound.raw_of_pending⟩, hgets.byte_eq, hrest, hnext, rfl, hgets.total_eq⟩

theorem peek_of_calm {s : Source} (h : s.reader.Calm) :
    ∃ byte s', s.peek = (.ok byte, s') ∧ s'.reader.Calm := by
  unfold peek
  split
  next p hp => exact ⟨_, _, rfl, h⟩
  next hp =>
    obtain ⟨byte, s₁, hget, hcalm⟩ := get_of_calm h
    rw [hget]
    exact ⟨_, _, rfl, hcalm⟩

end Source

end Stream

end ScriptMinifier
