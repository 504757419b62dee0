import ScriptMinifier.Stream.Run

/-!
# Runs over any feed

A run takes bytes, looks at the byte behind the one it took, and asks where a byte stood.  It knows
nothing else of its source.  So the run can be said of any state with these three calls, a `Feed`,
and the run over streams is the one over the feed of sources (`run_eq_outcome`).

A run makes its calls in a fixed order: it looks ahead only right behind a byte that it took, and it
makes no call behind a fault or behind the end.  A `Feed.Simulation` asks of two feeds that they
agree on calls in that order and on no others, and `Feed.Simulation.run` concludes that the runs
over them end alike.
-/

namespace ScriptMinifier.Stream

/-- The calls by which the bytes of a state are taken. -/
structure Feed (σ : Type) where
  /-- Takes the next byte; `none` is the end. -/
  get : σ → Except Fault (Option Byte) × σ
  /-- Looks at the next byte. -/
  peek : σ → Except Fault (Option Byte) × σ
  /-- Gives back what was taken last. -/
  unget : σ → Option Byte → σ
  /-- The position of the byte taken last. -/
  position : σ → Position
  /-- A bound on the bytes that can still be taken. -/
  remaining : σ → Nat
  remaining_get_lt : ∀ {s s' : σ} {b : Byte},
    get s = (.ok (some b), s') → remaining s' < remaining s
  remaining_peek_le : ∀ {s s' : σ} {byte : Option Byte},
    peek s = (.ok byte, s') → remaining s' ≤ remaining s

/-- How a run ended: how many bytes it put or why it failed, with the state and the writer as it
left them. -/
structure Ending (σ : Type) where
  result : Except MinifyError Nat
  source : σ
  writer : Writer

def Ending.map {σ τ : Type} (f : σ → τ) (e : Ending σ) : Ending τ :=
  ⟨e.result, f e.source, e.writer⟩

namespace Feed

variable {σ τ : Type} (F : Feed σ)

def lookahead (l : Lexer) (b : Byte) (s : σ) : Except Fault (Option Byte) × σ :=
  if l.looksAhead b then F.peek s else (.ok none, s)

theorem remaining_lookahead_le {l : Lexer} {b : Byte} {s s' : σ} {next : Option Byte}
    (h : F.lookahead l b s = (.ok next, s')) : F.remaining s' ≤ F.remaining s := by
  unfold lookahead at h
  split at h
  · exact F.remaining_peek_le h
  · cases h
    exact Nat.le_refl _

end Feed

def Ending.atEnd {σ : Type} (o : Options) (l : Lexer) (opened : Position) (s : σ) (sink : Sink) :
    Ending σ :=
  match l.finish with
  | some kind => ⟨.error (.unterminated ⟨kind, opened⟩), s, sink.abandon⟩
  | none =>
    match close o l sink with
    | (.error f, sink') => ⟨.error (.stream f), s, sink'.abandon⟩
    | (.ok (), sink') => ⟨.ok sink'.written, s, sink'.abandon⟩

/-- Runs over a feed from a state of the lexer. -/
def Feed.run {σ : Type} (F : Feed σ) (o : Options) (l : Lexer) (opened : Position) (s : σ)
    (sink : Sink) : Ending σ :=
  match _hget : F.get s with
  | (.error f, s₁) => ⟨.error (.stream f), s₁, sink.abandon⟩
  | (.ok none, s₁) => .atEnd o l opened s₁ sink
  | (.ok (some b), s₁) =>
    match _hnext : F.lookahead l b s₁ with
    | (.error f, s₂) => ⟨.error (.stream f), s₂, sink.abandon⟩
    | (.ok next, s₂) =>
      match l.step b next with
      | .error kind =>
        ⟨.error (.unterminated ⟨kind, if l.mode = .code then F.position s₁ else opened⟩), s₂,
          sink.abandon⟩
      | .ok (l', piece) =>
        match sink.putAll (piece.toList.flatMap (Piece.write o)) with
        | (.error f, sink') => ⟨.error (.stream f), s₂, sink'.abandon⟩
        | (.ok (), sink') =>
          F.run o l' (if l.mode = .code then F.position s₁ else opened) s₂ sink'
termination_by F.remaining s
decreasing_by
  have hlt := F.remaining_get_lt _hget
  have hle := F.remaining_lookahead_le _hnext
  omega

/-! ### Equations of a run -/

namespace Feed

variable {σ : Type} {F : Feed σ} (o : Options) {l l' : Lexer} (opened : Position) {s s₁ s₂ : σ}
  {sink sink' : Sink} {f : Fault} {b : Byte} {next : Option Byte} {piece : Option Piece}

theorem run_of_get_error (l : Lexer) (sink : Sink) (hget : F.get s = (.error f, s₁)) :
    F.run o l opened s sink = ⟨.error (.stream f), s₁, sink.abandon⟩ := by
  rw [run, hget]

theorem run_of_get_none (l : Lexer) (sink : Sink) (hget : F.get s = (.ok none, s₁)) :
    F.run o l opened s sink = .atEnd o l opened s₁ sink := by
  rw [run, hget]

theorem run_of_lookahead_error (sink : Sink) (hget : F.get s = (.ok (some b), s₁))
    (hnext : F.lookahead l b s₁ = (.error f, s₂)) :
    F.run o l opened s sink = ⟨.error (.stream f), s₂, sink.abandon⟩ := by
  rw [run, hget]
  dsimp only
  rw [hnext]

theorem run_of_step_error {kind : LiteralKind} (sink : Sink)
    (hget : F.get s = (.ok (some b), s₁)) (hnext : F.lookahead l b s₁ = (.ok next, s₂))
    (hstep : l.step b next = .error kind) :
    F.run o l opened s sink
      = ⟨.error (.unterminated ⟨kind, if l.mode = .code then F.position s₁ else opened⟩), s₂,
          sink.abandon⟩ := by
  rw [run, hget]
  dsimp only
  rw [hnext]
  dsimp only
  rw [hstep]

theorem run_of_put_error (hget : F.get s = (.ok (some b), s₁))
    (hnext : F.lookahead l b s₁ = (.ok next, s₂)) (hstep : l.step b next = .ok (l', piece))
    (hput : sink.putAll (piece.toList.flatMap (Piece.write o)) = (.error f, sink')) :
    F.run o l opened s sink = ⟨.error (.stream f), s₂, sink'.abandon⟩ := by
  rw [run, hget]
  dsimp only
  rw [hnext]
  dsimp only
  rw [hstep]
  dsimp only
  rw [hput]

theorem run_of_turn (hget : F.get s = (.ok (some b), s₁))
    (hnext : F.lookahead l b s₁ = (.ok next, s₂)) (hstep : l.step b next = .ok (l', piece))
    (hput : sink.putAll (piece.toList.flatMap (Piece.write o)) = (.ok (), sink')) :
    F.run o l opened s sink
      = F.run o l' (if l.mode = .code then F.position s₁ else opened) s₂ sink' := by
  rw [run, hget]
  dsimp only
  rw [hnext]
  dsimp only
  rw [hstep]
  dsimp only
  rw [hput]

end Feed

/-! ### The feed of sources -/

namespace Source

variable {s s₁ s₂ : Source} {f : Fault} {b : Byte} {chunk : Bytes}

theorem get_of_pending {p : Pending} (hp : s.pending = some p) :
    s.get = (.ok p.byte, { s with pending := none, last := p.position }) := by
  rw [get, hp]

theorem get_of_fill_error (hp : s.pending = none) (hfill : s.fill = (.error f, s₁)) :
    s.get = (.error f, s₁) := by
  rw [get, hp]
  dsimp only
  rw [hfill]

theorem get_of_nil (hp : s.pending = none) (hfill : s.fill = (.ok (), s₁))
    (hchunk : s₁.chunk = []) : s.get = (.ok none, { s₁ with last := s.cursor }) := by
  rw [get, hp]
  dsimp only
  rw [hfill]
  dsimp only
  rw [hchunk]

theorem get_of_ne_cr (hp : s.pending = none) (hfill : s.fill = (.ok (), s₁))
    (hchunk : s₁.chunk = b :: chunk) (hb : b ≠ Byte.cr) :
    s.get = (.ok (some b), { s₁ with
      chunk
      cursor := s.cursor.advance b
      last := s.cursor }) := by
  rw [get, hp]
  dsimp only
  rw [hfill]
  dsimp only
  rw [hchunk]
  dsimp only
  rw [if_neg hb]

theorem get_of_cr_error (hp : s.pending = none) (hfill : s.fill = (.ok (), s₁))
    (hchunk : s₁.chunk = Byte.cr :: chunk) (hfill' : { s₁ with chunk }.fill = (.error f, s₂)) :
    s.get = (.error f, s₂) := by
  rw [get, hp]
  dsimp only
  rw [hfill]
  dsimp only
  rw [hchunk]
  dsimp only
  rw [if_pos rfl, hfill']

theorem get_of_cr (hp : s.pending = none) (hfill : s.fill = (.ok (), s₁))
    (hchunk : s₁.chunk = Byte.cr :: chunk) (hfill' : { s₁ with chunk }.fill = (.ok (), s₂)) :
    s.get = (.ok (some Byte.lf), { s₂.skipPairedLf with
      cursor := s.cursor.advance Byte.lf
      last := s.cursor }) := by
  rw [get, hp]
  dsimp only
  rw [hfill]
  dsimp only
  rw [hchunk]
  dsimp only
  rw [if_pos rfl, hfill']

theorem peek_of_pending {p : Pending} (hp : s.pending = some p) : s.peek = (.ok p.byte, s) := by
  rw [peek, hp]

theorem peek_of_get_error (hp : s.pending = none) (hget : s.get = (.error f, s₁)) :
    s.peek = (.error f, s₁) := by
  rw [peek, hp]
  dsimp only
  rw [hget]

theorem peek_of_get {byte : Option Byte} (hp : s.pending = none) (hget : s.get = (.ok byte, s₁)) :
    s.peek = (.ok byte, { s₁.unget byte with last := s.last }) := by
  rw [peek, hp]
  dsimp only
  rw [hget]

end Source

def Source.feed : Feed Source where
  get := Source.get
  peek := Source.peek
  unget := Source.unget
  position := Source.position
  remaining := Source.remaining
  remaining_get_lt := Source.remaining_get_lt
  remaining_peek_le := Source.remaining_peek_le

def Ending.outcome (e : Ending Source) : Outcome :=
  ⟨e.result.map fun written => ⟨e.source.bytesRead, written⟩, e.source.reader, e.writer⟩

theorem conclude_eq_outcome (o : Options) (l : Lexer) (opened : Position) (source : Source)
    (sink : Sink) :
    conclude o l opened source sink = (Ending.atEnd o l opened source sink).outcome := by
  unfold conclude Ending.atEnd
  cases l.finish with
  | some kind => rfl
  | none =>
    cases close o l sink with
    | mk result sink' => cases result <;> rfl

/-- **A run over streams is a run over the feed of sources.** -/
theorem run_eq_outcome (o : Options) (l : Lexer) (opened : Position) (source : Source)
    (sink : Sink) :
    run o l opened source sink = (Source.feed.run o l opened source sink).outcome := by
  fun_induction run o l opened source sink with
  | case1 l opened source sink f source₁ hget =>
    rw [Feed.run_of_get_error (F := Source.feed) o opened l sink hget]
    rfl
  | case2 l opened source sink source₁ hget =>
    rw [Feed.run_of_get_none (F := Source.feed) o opened l sink hget]
    exact conclude_eq_outcome o l opened source₁ sink
  | case3 l opened source sink b source₁ hget f source₂ hnext =>
    rw [Feed.run_of_lookahead_error (F := Source.feed) o opened sink hget hnext]
    rfl
  | case4 l opened source sink b source₁ hget opened' next source₂ hnext kind hstep =>
    rw [Feed.run_of_step_error (F := Source.feed) o opened sink hget hnext hstep]
    rfl
  | case5 l opened source sink b source₁ hget next source₂ hnext l' piece hstep f sink₁ hput =>
    rw [Feed.run_of_put_error (F := Source.feed) o opened hget hnext hstep hput]
    rfl
  | case6 l opened source sink b source₁ hget opened' next source₂ hnext l' piece hstep sink₁ hput
      ih =>
    rw [Feed.run_of_turn (F := Source.feed) o opened hget hnext hstep hput]
    exact ih

/-! ### Feeds that agree -/

/-- Two feeds agree on the calls of a run.  Behind a byte that was taken the run may look ahead;
behind a fault or the end it makes no call. -/
structure Feed.Simulation {σ τ : Type} (F : Feed σ) (G : Feed τ) where
  /-- Between two turns. -/
  Between : σ → τ → Prop
  /-- A byte was taken, and the next one was not looked at. -/
  Behind : σ → τ → Prop
  /-- The end was met. -/
  AtEnd : σ → τ → Prop
  /-- A call failed. -/
  Failed : Fault → σ → τ → Prop
  get_byte : ∀ {s s' t b}, Between s t → F.get s = (.ok (some b), s') →
    ∃ t', G.get t = (.ok (some b), t') ∧ Behind s' t'
  get_end : ∀ {s s' t}, Between s t → F.get s = (.ok none, s') →
    ∃ t', G.get t = (.ok none, t') ∧ AtEnd s' t'
  get_fault : ∀ {s s' t f}, Between s t → F.get s = (.error f, s') →
    ∃ t', G.get t = (.error f, t') ∧ Failed f s' t'
  peek_ok : ∀ {s s' t next}, Behind s t → F.peek s = (.ok next, s') →
    ∃ t', G.peek t = (.ok next, t') ∧ Between s' t'
  peek_fault : ∀ {s s' t f}, Behind s t → F.peek s = (.error f, s') →
    ∃ t', G.peek t = (.error f, t') ∧ Failed f s' t'
  position_eq : ∀ {s t}, Behind s t → F.position s = G.position t
  between : ∀ {s t}, Behind s t → Between s t

namespace Feed.Simulation

variable {σ τ : Type} {F : Feed σ} {G : Feed τ} (S : F.Simulation G)

/-- How the states are left by a run with the given result: a fault of the feed is the result, and
a run that does not fail has met the end. -/
def Left (result : Except MinifyError Nat) (s : σ) (t : τ) : Prop :=
  (∃ f, result = .error (.stream f) ∧ S.Failed f s t) ∨ S.AtEnd s t ∨
    ((∀ n, result ≠ .ok n) ∧ S.Between s t)

structure Alike (x : Ending σ) (y : Ending τ) : Prop where
  result_eq : x.result = y.result
  writer_eq : x.writer = y.writer
  left : S.Left x.result x.source y.source

theorem lookahead_ok {l : Lexer} {b : Byte} {s s' : σ} {t : τ} {next : Option Byte}
    (h : S.Behind s t) (hnext : F.lookahead l b s = (.ok next, s')) :
    ∃ t', G.lookahead l b t = (.ok next, t') ∧ S.Between s' t' := by
  unfold lookahead at hnext ⊢
  split at hnext
  next hahead =>
    rw [if_pos hahead]
    exact S.peek_ok h hnext
  next hahead =>
    rw [if_neg hahead]
    cases hnext
    exact ⟨t, rfl, S.between h⟩

theorem lookahead_fault {l : Lexer} {b : Byte} {s s' : σ} {t : τ} {f : Fault}
    (h : S.Behind s t) (hnext : F.lookahead l b s = (.error f, s')) :
    ∃ t', G.lookahead l b t = (.error f, t') ∧ S.Failed f s' t' := by
  unfold lookahead at hnext ⊢
  split at hnext
  next hahead =>
    rw [if_pos hahead]
    exact S.peek_fault h hnext
  next => cases hnext

theorem alike_atEnd (o : Options) (l : Lexer) (opened : Position) {s : σ} {t : τ} (sink : Sink)
    (h : S.AtEnd s t) : S.Alike (.atEnd o l opened s sink) (.atEnd o l opened t sink) := by
  unfold Ending.atEnd
  cases l.finish with
  | some kind => exact ⟨rfl, rfl, .inr (.inl h)⟩
  | none =>
    cases close o l sink with
    | mk result sink' => cases result <;> exact ⟨rfl, rfl, .inr (.inl h)⟩

/-- **Runs over feeds that agree end alike.** -/
theorem run (o : Options) (l : Lexer) (opened : Position) {s : σ} {t : τ} (sink : Sink)
    (h : S.Between s t) : S.Alike (F.run o l opened s sink) (G.run o l opened t sink) := by
  fun_induction Feed.run F o l opened s sink generalizing t with
  | case1 l opened s sink f s₁ hget =>
    obtain ⟨t₁, hget', hfailed⟩ := S.get_fault h hget
    rw [run_of_get_error o opened l sink hget']
    exact ⟨rfl, rfl, .inl ⟨f, rfl, hfailed⟩⟩
  | case2 l opened s sink s₁ hget =>
    obtain ⟨t₁, hget', hend⟩ := S.get_end h hget
    rw [run_of_get_none o opened l sink hget']
    exact S.alike_atEnd o l opened sink hend
  | case3 l opened s sink b s₁ hget f s₂ hnext =>
    obtain ⟨t₁, hget', hbehind⟩ := S.get_byte h hget
    obtain ⟨t₂, hnext', hfailed⟩ := S.lookahead_fault hbehind hnext
    rw [run_of_lookahead_error o opened sink hget' hnext']
    exact ⟨rfl, rfl, .inl ⟨f, rfl, hfailed⟩⟩
  | case4 l opened s sink b s₁ hget next s₂ hnext kind hstep =>
    obtain ⟨t₁, hget', hbehind⟩ := S.get_byte h hget
    obtain ⟨t₂, hnext', hbetween⟩ := S.lookahead_ok hbehind hnext
    rw [run_of_step_error o opened sink hget' hnext' hstep, ← S.position_eq hbehind]
    exact ⟨rfl, rfl, .inr (.inr ⟨by simp, hbetween⟩)⟩
  | case5 l opened s sink b s₁ hget next s₂ hnext l' piece hstep f sink₁ hput =>
    obtain ⟨t₁, hget', hbehind⟩ := S.get_byte h hget
    obtain ⟨t₂, hnext', hbetween⟩ := S.lookahead_ok hbehind hnext
    rw [run_of_put_error o opened hget' hnext' hstep hput]
    exact ⟨rfl, rfl, .inr (.inr ⟨by simp, hbetween⟩)⟩
  | case6 l opened s sink b s₁ hget next s₂ hnext l' piece hstep sink₁ hput ih =>
    obtain ⟨t₁, hget', hbehind⟩ := S.get_byte h hget
    obtain ⟨t₂, hnext', hbetween⟩ := S.lookahead_ok hbehind hnext
    rw [run_of_turn o opened hget' hnext' hstep hput, ← S.position_eq hbehind]
    exact ih hbetween

end Feed.Simulation

end ScriptMinifier.Stream
