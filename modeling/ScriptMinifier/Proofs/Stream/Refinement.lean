import ScriptMinifier.Proofs.Breaks
import ScriptMinifier.Proofs.Stream.Schedule
import ScriptMinifier.Proofs.Stream.Record

/-!
# A source answers like a cursor

A `Cursor` is a text, the index of the next byte and the index of the byte handed out last.  It has
no chunks and no slot for a byte that was given back.  Here a source on a steady reader is shown to
answer every sequence of calls as the cursor over the unified text answers it, as long as a byte is
given back only right behind the call that took it (`Call.proper`).

An answer has the position behind the call, so the two agree on positions too.

* `Feed.Refinement.perform`: feeds that agree on every call agree on every sequence.
* `Source.follows`: a source and a cursor agree.
* `Indexed.follows`: a source by indices and a source agree, and the indices stay in the room.
* `Indexed.Sound.slips_perform`: over any reader, the calls of a run leave nothing on record.
-/

namespace ScriptMinifier.Stream

/-! ### Sequences of calls -/

inductive Call where
  | get
  | peek
  /-- Gives back what was taken last. -/
  | unget
  deriving DecidableEq, Repr

/-- A byte is given back only right behind the call that took it: only then is the slot empty and
the byte the one taken last.  `taken` says that the call before took a byte. -/
def Call.proper (taken : Bool) : List Call → Bool
  | [] => true
  | .get :: calls => proper true calls
  | .peek :: calls => proper false calls
  | .unget :: calls => taken && proper false calls

/-- The next byte is looked at only right behind the call that took the one before it, and none is
given back.  So does a run, and it may do so behind the end too. -/
def Call.forward (taken : Bool) : List Call → Bool
  | [] => true
  | .get :: calls => forward true calls
  | .peek :: calls => taken && forward false calls
  | .unget :: _ => false

structure Answer where
  /-- What it returned; giving back returns nothing. -/
  value : Option (Except Fault (Option Byte))
  /-- The position of the byte taken last, behind the call. -/
  position : Position
  deriving Repr

namespace Feed

variable {σ τ : Type}

/-- The answers of a feed to a sequence of calls, and the state behind them; `got` was taken last.
A fault ends the sequence. -/
def perform (F : Feed σ) (got : Option Byte) : List Call → σ → List Answer × σ
  | [], s => ([], s)
  | .get :: calls, s =>
    match F.get s with
    | (.error f, s') => ([⟨some (.error f), F.position s'⟩], s')
    | (.ok byte, s') =>
      (F.perform byte calls s').map (⟨some (.ok byte), F.position s'⟩ :: ·) id
  | .peek :: calls, s =>
    match F.peek s with
    | (.error f, s') => ([⟨some (.error f), F.position s'⟩], s')
    | (.ok byte, s') =>
      (F.perform got calls s').map (⟨some (.ok byte), F.position s'⟩ :: ·) id
  | .unget :: calls, s =>
    (F.perform got calls (F.unget s got)).map (⟨none, F.position (F.unget s got)⟩ :: ·) id

/-- Two feeds that agree on every call, where no call fails. -/
structure Refinement (F : Feed σ) (G : Feed τ) where
  /-- Between any two calls. -/
  Between : σ → τ → Prop
  /-- Right behind the call that took `byte`. -/
  Behind : Option Byte → σ → τ → Prop
  get : ∀ {s t}, Between s t →
    ∃ byte s' t', F.get s = (.ok byte, s') ∧ G.get t = (.ok byte, t') ∧ Behind byte s' t'
  peek : ∀ {s t}, Between s t →
    ∃ byte s' t', F.peek s = (.ok byte, s') ∧ G.peek t = (.ok byte, t') ∧ Between s' t'
  unget : ∀ {byte s t}, Behind byte s t → Between (F.unget s byte) (G.unget t byte)
  position_eq : ∀ {s t}, Between s t → F.position s = G.position t
  between : ∀ {byte s t}, Behind byte s t → Between s t

/-- **Feeds that agree on every call agree on every sequence.** -/
theorem Refinement.perform {F : Feed σ} {G : Feed τ} (R : F.Refinement G) (taken : Bool)
    (got : Option Byte) {calls : List Call} {s : σ} {t : τ} (h : R.Between s t)
    (hbehind : taken = true → R.Behind got s t) (hcalls : Call.proper taken calls = true) :
    (F.perform got calls s).1 = (G.perform got calls t).1 ∧
      R.Between (F.perform got calls s).2 (G.perform got calls t).2 := by
  induction calls generalizing taken got s t with
  | nil => exact ⟨rfl, h⟩
  | cons c calls ih =>
    cases c with
    | get =>
      obtain ⟨byte, s', t', hs, ht, hnew⟩ := R.get h
      obtain ⟨hanswers, hleft⟩ := ih true byte (R.between hnew) (fun _ => hnew) hcalls
      simp only [Feed.perform, hs, ht, R.position_eq (R.between hnew)]
      exact ⟨congrArg _ hanswers, hleft⟩
    | peek =>
      obtain ⟨byte, s', t', hs, ht, hnew⟩ := R.peek h
      obtain ⟨hanswers, hleft⟩ := ih false got hnew (by simp) hcalls
      simp only [Feed.perform, hs, ht, R.position_eq hnew]
      exact ⟨congrArg _ hanswers, hleft⟩
    | unget =>
      obtain ⟨htaken, hrest⟩ := Bool.and_eq_true_iff.mp hcalls
      have hnew := R.unget (hbehind htaken)
      obtain ⟨hanswers, hleft⟩ := ih false got hnew (by simp) hrest
      simp only [Feed.perform, R.position_eq hnew]
      exact ⟨congrArg _ hanswers, hleft⟩

end Feed

/-! ### The cursor -/

/-- A text and two places in it. -/
structure Cursor where
  text : Bytes
  /-- Where the next byte stands. -/
  index : Nat := 0
  /-- Where the byte handed out last stands. -/
  last : Nat := 0
  deriving DecidableEq, Repr

namespace Cursor

/-- Takes the next byte.  The end is never passed. -/
def get (c : Cursor) : Option Byte × Cursor :=
  (c.text[c.index]?, { c with index := min (c.index + 1) c.text.length, last := c.index })

def unget (c : Cursor) : Cursor := { c with index := c.last }

def feed : Feed Cursor where
  get c := (.ok c.get.1, c.get.2)
  peek c := (.ok c.text[c.index]?, c)
  unget c _ := c.unget
  position c := positionAt c.text c.last
  remaining c := c.text.length - c.index
  remaining_get_lt := by
    intro c c' b h
    obtain ⟨hbyte, rfl⟩ := Prod.mk.inj h
    obtain ⟨hlt, -⟩ := List.getElem?_eq_some_iff.mp (Except.ok.inj hbyte)
    show c.text.length - min (c.index + 1) c.text.length < c.text.length - c.index
    omega
  remaining_peek_le := by
    intro c c' byte h
    obtain ⟨-, rfl⟩ := Prod.mk.inj h
    exact Nat.le_refl _

end Cursor

/-! ### Positions in a unified text -/

theorem positionAt_eq_foldl {text : Bytes} (hcr : Byte.cr ∉ text) (i : Nat) :
    positionAt text i = (text.take i).foldl Position.advance .first := by
  rw [← foldl_advance_take, unifyBreaks_eq_self (fun h => hcr (List.mem_of_mem_take h))]

theorem positionAt_succ {text : Bytes} (hcr : Byte.cr ∉ text) {i : Nat} {b : Byte}
    (hb : text[i]? = some b) : positionAt text (i + 1) = (positionAt text i).advance b := by
  rw [positionAt_eq_foldl hcr, positionAt_eq_foldl hcr, List.take_add_one, hb, List.foldl_append]
  rfl

/-! ### A source and a cursor -/

namespace Source

/-- The source has left what stands behind the index, and its positions are those of the cursor. -/
structure At (s : Source) (text : Bytes) (index : Nat) : Prop where
  rest_eq : s.rest = text.drop index
  next_eq : s.next = positionAt text index
  index_le : index ≤ text.length

theorem at_ofReader (r : Reader) (size : Nat) : (ofReader r size).At (unifyBreaks r.bytes) 0 :=
  ⟨rfl, rfl, Nat.zero_le _⟩

theorem Gets.at {s s' : Source} {text : Bytes} {index : Nat} {byte : Option Byte}
    (h : s.Gets byte s') (hs : s.At text index) (hcr : Byte.cr ∉ text) :
    byte = text[index]? ∧ s'.At text (min (index + 1) text.length) := by
  have hbyte : byte = text[index]? := by
    rw [h.byte_eq, hs.rest_eq, List.head?_drop]
  have hnext : s'.next = positionAfter (positionAt text index) byte := by
    rw [next, h.pending_eq, ← hs.next_eq]
    exact h.cursor_eq
  refine ⟨hbyte, ?_, ?_, Nat.min_le_right _ _⟩
  · rw [h.rest_eq, hs.rest_eq, List.tail_drop]
    rcases Nat.le_total (index + 1) text.length with hle | hle
    · rw [Nat.min_eq_left hle]
    · rw [Nat.min_eq_right hle, List.drop_of_length_le hle, List.drop_length]
  · rw [hnext]
    cases hindex : text[index]? with
    | none =>
      have hend : text.length ≤ index := List.getElem?_eq_none_iff.mp hindex
      have hmin : min (index + 1) text.length = index := by
        have := hs.index_le
        omega
      rw [hbyte, hindex, hmin]
      rfl
    | some b =>
      obtain ⟨hlt, -⟩ := List.getElem?_eq_some_iff.mp hindex
      rw [hbyte, hindex, Nat.min_eq_left hlt, positionAt_succ hcr hindex]
      rfl

/-- **A source follows a cursor.** -/
def follows : Source.feed.Refinement Cursor.feed where
  Between s c := s.Sound ∧ s.reader.Calm ∧ s.At c.text c.index ∧ s.last = positionAt c.text c.last ∧
    Byte.cr ∉ c.text
  Behind byte s c := s.Sound ∧ s.reader.Calm ∧ s.At c.text c.index ∧
    s.last = positionAt c.text c.last ∧ Byte.cr ∉ c.text ∧
    ∃ s₀ : Source, s₀.Gets byte s ∧ s₀.At c.text c.last
  get := by
    rintro s c ⟨hs, hcalm, hat, -, hcr⟩
    obtain ⟨byte, s', hget, hcalm'⟩ := get_of_calm hcalm
    have hgets := get_eq_ok hs hget
    obtain ⟨hbyte, hat'⟩ := hgets.at hat hcr
    refine ⟨byte, s', c.get.2, hget, by rw [hbyte]; rfl, hgets.sound, hcalm', hat', ?_, hcr,
      s, hgets, hat⟩
    exact hgets.last_eq.trans hat.next_eq
  peek := by
    rintro s c ⟨hs, hcalm, hat, hlast, hcr⟩
    obtain ⟨byte, s', hpeek, hcalm'⟩ := peek_of_calm hcalm
    have hpeeks := peek_eq_ok hs hpeek
    have hbyte : byte = c.text[c.index]? := by
      rw [hpeeks.byte_eq, hat.rest_eq, List.head?_drop]
    exact ⟨byte, s', c, hpeek, by rw [hbyte]; rfl, hpeeks.sound, hcalm',
      ⟨hpeeks.rest_eq.trans hat.rest_eq, hpeeks.next_eq.trans hat.next_eq, hat.index_le⟩,
      hpeeks.last_eq.trans hlast, hcr⟩
  unget := by
    rintro byte s c ⟨-, hcalm, -, hlast, hcr, s₀, hgets, hat₀⟩
    obtain ⟨hsound, hrest, hnext⟩ := hgets.unget
    exact ⟨hsound, hcalm, ⟨hrest.trans hat₀.rest_eq, hnext.trans hat₀.next_eq, hat₀.index_le⟩,
      hlast, hcr⟩
  position_eq := by
    rintro s c ⟨-, -, -, hlast, -⟩
    exact hlast
  between := by
    rintro byte s c ⟨hs, hcalm, hat, hlast, hcr, -⟩
    exact ⟨hs, hcalm, hat, hlast, hcr⟩

end Source

/-! ### Indices and a source -/

namespace Indexed

theorem Sound.expect {r : Reader} {size : Nat} {x : Indexed} (h : x.Sound r size) (holds : Bool)
    (slip : Slip) :
    (x.expect holds slip).Sound r size := by
  unfold Indexed.expect
  split
  · exact h
  · exact h.with x.cursor x.last (x.slips ++ [slip]) h.exhausted_of_pending

theorem peek_of_pending {x : Indexed} {p : Pending} (hp : x.pending = some p) :
    x.peek = (.ok p.byte, x.expect false .again) := by
  rw [Indexed.peek, hp]

/-- **A source by indices follows a source.**  The slot is never filled twice and no index leaves
the room; a byte may be looked at twice. -/
def follows (r : Reader) (size : Nat) : feed.Refinement Source.feed where
  Between x s := x.toSource = s ∧ x.Sound r size ∧ (∀ slip ∈ x.slips, slip = .again) ∧ x.reader.Calm
  Behind byte x s := x.toSource = s ∧ x.Sound r size ∧ (∀ slip ∈ x.slips, slip = .again) ∧
    x.reader.Calm ∧ x.pending = none ∧ (byte = none → x.exhausted = true)
  get := by
    rintro x _ ⟨rfl, hx, hslips, hcalm⟩
    obtain ⟨byte, s', hget, hcalm'⟩ := Source.get_of_calm (s := x.toSource) hcalm
    have htaken := hx.get
    obtain ⟨hresult, rfl⟩ := Prod.mk.inj (hget.symm.trans htaken.get_eq)
    obtain ⟨hsound, hend⟩ := htaken.of_ok byte hresult.symm
    refine ⟨byte, x.get.2, _, ?_, hget, rfl, hsound, ?_, hcalm', htaken.pending_eq, hend⟩
    · exact Prod.ext hresult.symm rfl
    · rw [htaken.slips_eq]
      exact hslips
  peek := by
    rintro x _ ⟨rfl, hx, hslips, hcalm⟩
    cases hp : x.pending with
    | some p =>
      refine ⟨p.byte, _, _, peek_of_pending hp, Source.peek_of_pending (s := x.toSource) hp,
        toSource_expect x false .again, hx.expect false .again, ?_, ?_⟩
      · intro slip hslip
        rcases List.mem_append.mp hslip with hold | hnew
        · exact hslips slip hold
        · exact List.mem_singleton.mp hnew
      · exact hcalm
    | none =>
      obtain ⟨byte, s', hpeek, hcalm'⟩ := Source.peek_of_calm (s := x.toSource) hcalm
      have hseen := hx.peek hp
      obtain ⟨hresult, rfl⟩ := Prod.mk.inj (hpeek.symm.trans hseen.peek_eq)
      refine ⟨byte, x.peek.2, _, ?_, hpeek, rfl, hseen.of_ok byte hresult.symm, ?_, hcalm'⟩
      · exact Prod.ext hresult.symm rfl
      · rw [hseen.slips_eq]
        exact hslips
  unget := by
    rintro byte x _ ⟨rfl, hx, hslips, hcalm, hp, hend⟩
    obtain ⟨hsound, hslips'⟩ := hx.unget hp hend
    refine ⟨toSource_unget x byte, hsound, ?_, ?_⟩
    · rw [show (feed.unget x byte).slips = x.slips from hslips']
      exact hslips
    · have hreader := congrArg Source.reader (toSource_unget x byte)
      rw [show (feed.unget x byte).reader = x.reader from hreader]
      exact hcalm
  position_eq := by
    rintro x _ ⟨rfl, -⟩
    rfl
  between := by
    rintro byte x _ ⟨hs, hx, hslips, hcalm, -⟩
    exact ⟨hs, hx, hslips, hcalm⟩

/-- **Looking ahead only right behind a byte makes no slip**, whatever the reader does. -/
theorem Sound.slips_perform {r : Reader} {size : Nat} {x : Indexed} (h : x.Sound r size)
    (hslips : x.slips = []) (taken : Bool) (hp : taken = true → x.pending = none)
    (got : Option Byte) {calls : List Call} (hcalls : Call.forward taken calls = true) :
    (feed.perform got calls x).2.slips = [] ∧ (feed.perform got calls x).2.Fits := by
  induction calls generalizing x taken got with
  | nil => exact ⟨hslips, h.fits⟩
  | cons c calls ih =>
    cases c with
    | get =>
      have htaken := h.get
      simp only [Feed.perform]
      rcases hget : feed.get x with ⟨f | byte, x'⟩
      all_goals rw [show x.get = _ from hget] at htaken
      · exact ⟨htaken.slips_eq.trans hslips, (htaken.of_error f rfl).fits⟩
      · exact ih (htaken.of_ok byte rfl).1 (htaken.slips_eq.trans hslips) true
          (fun _ => htaken.pending_eq) byte hcalls
    | peek =>
      obtain ⟨htrue, hrest⟩ := Bool.and_eq_true_iff.mp hcalls
      have hseen := h.peek (hp htrue)
      simp only [Feed.perform]
      rcases hpeek : feed.peek x with ⟨f | byte, x'⟩
      all_goals rw [show x.peek = _ from hpeek] at hseen
      · exact ⟨hseen.slips_eq.trans hslips, (hseen.of_error f rfl).fits⟩
      · exact ih (hseen.of_ok byte rfl) (hseen.slips_eq.trans hslips) false (by simp) got hrest
    | unget => cases hcalls

end Indexed

/-- **A source answers like a cursor over the unified text.**  Over every steady reader, with any
room for chunks and for every sequence of calls that gives a byte back only right behind the call
that took it, the answers and the positions behind the calls are those of the cursor.  By indices it
gives the same answers, the indices stay in order and in the room, no byte is fetched from outside
and none is given back to a slot that is taken.  Over any reader a run does not even look ahead
twice, and neither do any calls that look ahead only right behind a byte. -/
theorem source_refines_cursor {r : Reader} (hr : r.Steady) (size : Nat) {calls : List Call}
    (hcalls : Call.proper false calls = true) :
    (Source.feed.perform none calls (.ofReader r size)).1
        = (Cursor.feed.perform none calls { text := unifyBreaks r.bytes }).1 ∧
      (∃ x : Indexed,
        Indexed.feed.perform none calls (.ofReader r size)
          = ((Source.feed.perform none calls (.ofReader r size)).1, x) ∧
        x.toSource = (Source.feed.perform none calls (.ofReader r size)).2 ∧
        x.pos ≤ x.len ∧ x.len ≤ x.room.length ∧ x.room.length = max size 1 ∧
        .outside ∉ x.slips ∧ .occupied ∉ x.slips) ∧
      (∀ (o : Options) (size : Nat) (r : Reader) (w : Writer),
        ((Indexed.run o size r w).map Indexed.toSource).outcome = minifyStream o size r w ∧
          (Indexed.run o size r w).source.slips = [] ∧ (Indexed.run o size r w).source.Fits) ∧
      ∀ (size : Nat) (r : Reader) (calls : List Call), Call.forward false calls = true →
        (Indexed.feed.perform none calls (.ofReader r size)).2.slips = [] ∧
          (Indexed.feed.perform none calls (.ofReader r size)).2.Fits := by
  have hcursor := Source.follows.perform false none
    (s := .ofReader r size) (t := { text := unifyBreaks r.bytes })
    ⟨Source.sound_ofReader hr.1 size, hr.2, Source.at_ofReader r size, rfl,
      cr_notMem_unifyBreaks r.bytes⟩ (by simp) hcalls
  have hindexed := (Indexed.follows r size).perform false none
    (s := .ofReader r size) (t := .ofReader r size)
    ⟨Indexed.toSource_ofReader r size, Indexed.sound_ofReader r size, by simp [Indexed.ofReader],
      hr.2⟩ (by simp) hcalls
  obtain ⟨hanswers, hsource, hsound, hslips, -⟩ := hindexed
  refine ⟨hcursor.1, ⟨_, Prod.ext hanswers rfl, hsource, hsound.fits.pos_le, hsound.fits.len_le,
    hsound.recorded.room_length, fun h => ?_, fun h => ?_⟩,
    fun o size r w => ⟨Indexed.outcome_run o size r w, Indexed.slips_run o size r w⟩,
    fun size r calls hforward => ?_⟩
  · exact absurd (hslips _ h) (by decide)
  · exact absurd (hslips _ h) (by decide)
  · exact (Indexed.sound_ofReader r size).slips_perform rfl false (by simp) none hforward

/-- A line break that is cut in two is taken, given back and looked at, and so is the end. -/
theorem source_refines_cursor_at_split_break :
    (Source.feed.perform none
        [.peek, .get, .get, .unget, .peek, .get, .get, .get, .unget, .get, .peek]
        (.ofReader ⟨utf8 "a\r\nb", [.limit 2, .fault ⟨.interrupted, "again"⟩], some 1, []⟩ 0)).1
      = [⟨some (.ok (some 97)), ⟨1, 1⟩⟩, ⟨some (.ok (some 97)), ⟨1, 1⟩⟩,
          ⟨some (.ok (some Byte.lf)), ⟨1, 2⟩⟩, ⟨none, ⟨1, 2⟩⟩,
          ⟨some (.ok (some Byte.lf)), ⟨1, 2⟩⟩, ⟨some (.ok (some Byte.lf)), ⟨1, 2⟩⟩,
          ⟨some (.ok (some 98)), ⟨2, 1⟩⟩, ⟨some (.ok none), ⟨2, 2⟩⟩, ⟨none, ⟨2, 2⟩⟩,
          ⟨some (.ok none), ⟨2, 2⟩⟩, ⟨some (.ok none), ⟨2, 2⟩⟩] := by
  have hr : (⟨utf8 "a\r\nb", [.limit 2, .fault ⟨.interrupted, "again"⟩], some 1, []⟩ :
      Reader).Steady :=
    ⟨⟨by simp [Event.Lively], by simp⟩, by simp [Reader.Calm, Event.Calm, Fault.interrupts]⟩
  exact (source_refines_cursor hr 0 (by decide)).1.trans rfl

end ScriptMinifier.Stream
