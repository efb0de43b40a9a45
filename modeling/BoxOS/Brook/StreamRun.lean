import BoxOS.Brook.Stream
import BoxOS.Lib.Ring
import BoxOS.Lib.Runs

/-!
# A brook delivers its frames, and when it says that it is closed

- `Fifo`: what lies between the two counters is what was pushed and not yet popped, and an end is at work only while its
  word says that it is alive. Every access keeps it, so in every run the frames come out as they went in, and a push
  reports that its reader is gone only when none is there or can come.
- `Closing`: a pop between its look at the counters and its compare-and-swap sees a dead writer only when nothing is
  left. That is so when no frame was pushed after this look by the time a writer's end is cleared (`Unhurried`). The
  source does not see to it: a pop that finds the ring empty does not look again once it finds the writer gone
  (`closed_with_frame_left`).
-/

namespace BoxOS.Brook

open Lib List

variable {sh : Shape} {s t : Stream}

namespace Shape

theorem frameCount_le (sh : Shape) : sh.frameCount ≤ 2 ^ 31 :=
  Nat.pow_le_pow_right (by decide) (Nat.le_of_lt_succ sh.small)

theorem slot_eq (sh : Shape) (n : Nat) : n % 2 ^ 64 % sh.frameCount = n % sh.frameCount := by
  apply Nat.mod_mod_of_dvd
  exact Nat.pow_dvd_pow 2 (by have := sh.small; omega)

end Shape

namespace Stream

/-! ## The frames -/

/-- What is true at each point of a push. -/
def WriterOk (sh : Shape) (s : Stream) : WriterPc → Prop
  | .loadTail frame | .checkAlive frame | .checkEver frame | .freeze frame | .blocked frame =>
    frame.length = sh.frameSize
  | .loadHead frame tail => frame.length = sh.frameSize ∧ tail = s.tail
  | .copy frame tail k =>
    frame.length = sh.frameSize ∧ tail = s.tail ∧ s.pushed.length < s.popped.length + sh.frameCount ∧ k ≤ sh.frameSize ∧
      ∀ j < k, s.slots (s.pushed.length % sh.frameCount) j = frame.getD j 0
  | _ => True

/-- What is true at each point of a pop. -/
def ReaderOk (sh : Shape) (s : Stream) : ReaderPc → Prop
  | .loadTail head => head = s.head
  | .copy head bytes =>
    head = s.head ∧ s.popped.length < s.pushed.length ∧ bytes.length ≤ sh.frameSize ∧
      ∀ f, s.pushed[s.popped.length]? = some f → bytes = f.take bytes.length
  | .checkAlive tail | .checkEver tail | .freeze tail => tail = s.head
  | _ => True

/-- The counters count the frames pushed and popped, the slots between them hold the frames between them, and an end is
attached exactly while its word is 1. -/
structure Fifo (sh : Shape) (s : Stream) : Prop where
  tail : s.tail = s.pushed.length % 2 ^ 64
  head : s.head = s.popped.length % 2 ^ 64
  order : s.popped.length ≤ s.pushed.length
  room : s.pushed.length ≤ s.popped.length + sh.frameCount
  taken : s.popped = s.pushed.take s.popped.length
  frames : ∀ f ∈ s.pushed, f.length = sh.frameSize
  slots : ∀ i f, s.popped.length ≤ i → s.pushed[i]? = some f →
    ∀ k < sh.frameSize, s.slots (i % sh.frameCount) k = f.getD k 0
  writer : s.WriterOk sh s.writerPc
  reader : s.ReaderOk sh s.readerPc
  writerEnd : s.writerPc ≠ .detached ↔ s.writer.alive = .alive
  readerEnd : s.readerPc ≠ .detached ↔ s.reader.alive = .alive
  terminated : s.terminated = true → s.reader.alive = .frozen

theorem init_fifo (sh : Shape) : Fifo sh init where
  tail := rfl
  head := rfl
  order := le_rfl
  room := Nat.zero_le _
  taken := rfl
  frames := nofun
  slots := nofun
  writer := trivial
  reader := trivial
  writerEnd := by simp [init]
  readerEnd := by simp [init]
  terminated := nofun

section

variable (h : Fifo sh s)

include h

theorem Fifo.writerControl {pc : WriterPc} {w r : EndWords} {b : Bool} (hok : s.WriterOk sh pc)
    (hw : pc ≠ .detached ↔ w.alive = .alive) (hr : s.readerPc ≠ .detached ↔ r.alive = .alive)
    (hb : b = true → r.alive = .frozen) :
    Fifo sh { s with writerPc := pc, writer := w, reader := r, terminated := b } where
  tail := h.tail
  head := h.head
  order := h.order
  room := h.room
  taken := h.taken
  frames := h.frames
  slots := h.slots
  writer := by cases pc <;> exact hok
  reader := by
    have := h.reader
    cases hp : s.readerPc <;> rw [hp] at this <;> exact this
  writerEnd := hw
  readerEnd := hr
  terminated := hb

theorem Fifo.readerControl {pc : ReaderPc} {w r : EndWords} {b : Bool} (hok : s.ReaderOk sh pc)
    (hw : s.writerPc ≠ .detached ↔ w.alive = .alive) (hr : pc ≠ .detached ↔ r.alive = .alive)
    (hb : s.terminated = true → r.alive = .frozen) :
    Fifo sh { s with readerPc := pc, writer := w, reader := r, closed := b } where
  tail := h.tail
  head := h.head
  order := h.order
  room := h.room
  taken := h.taken
  frames := h.frames
  slots := h.slots
  writer := by
    have := h.writer
    cases hp : s.writerPc <;> rw [hp] at this <;> exact this
  reader := by cases pc <;> exact hok
  writerEnd := hw
  readerEnd := hr
  terminated := hb

theorem Fifo.empty_iff : s.head = s.tail ↔ s.popped.length = s.pushed.length := by
  have := h.order
  have := h.room
  have := sh.frameCount_le
  rw [h.head, h.tail]
  omega

theorem Fifo.used : (s.tail + 2 ^ 64 - s.head) % 2 ^ 64 = s.pushed.length - s.popped.length := by
  have := h.order
  have := h.room
  have := sh.frameCount_le
  rw [h.head, h.tail]
  omega

theorem Fifo.slot_ne (hroom : s.pushed.length < s.popped.length + sh.frameCount) {i : Nat} (hge : s.popped.length ≤ i)
    (hlt : i < s.pushed.length) : i % sh.frameCount ≠ s.pushed.length % sh.frameCount := by
  intro he
  have := slot_inj hge (by omega) h.order hroom he
  omega

theorem Fifo.copyByte {frame : List UInt8} {tail k : Nat} (hpc : s.writerPc = .copy frame tail k)
    (hk : k < sh.frameSize) :
    Fifo sh { s with
      slots := Function.update s.slots (tail % sh.frameCount)
        (Function.update (s.slots (tail % sh.frameCount)) k (frame.getD k 0))
      writerPc := .copy frame tail (k + 1) } := by
  have hw := h.writer
  rw [hpc] at hw
  obtain ⟨hlen, htail, hroom, hle, hdone⟩ := hw
  have hslot : tail % sh.frameCount = s.pushed.length % sh.frameCount := by rw [htail, h.tail, sh.slot_eq]
  refine ⟨h.tail, h.head, h.order, h.room, h.taken, h.frames, fun i f hge hf j hj => ?_, ?_, h.reader, ?_, h.readerEnd,
    h.terminated⟩
  · have hlt : i < s.pushed.length := (List.getElem?_eq_some_iff.mp hf).1
    simp only [hslot]
    rw [Function.update_of_ne (h.slot_ne hroom hge hlt)]
    exact h.slots i f hge hf j hj
  · refine ⟨hlen, htail, hroom, hk, fun j hj => ?_⟩
    simp only [hslot, Function.update_self]
    by_cases he : j = k
    · rw [he, Function.update_self]
    · rw [Function.update_of_ne he]
      exact hdone j (by omega)
  · have := h.writerEnd
    rw [hpc] at this
    simpa using this

/-- A frame whose bytes are all in its slot becomes one of the frames of the ring. -/
theorem Fifo.publish {frame : List UInt8} {tail k : Nat} (hpc : s.writerPc = .copy frame tail k)
    (hk : ¬k < sh.frameSize) :
    Fifo sh { s with tail := (tail + 1) % 2 ^ 64, pushed := s.pushed ++ [frame], writerPc := .idle } := by
  have hw := h.writer
  rw [hpc] at hw
  obtain ⟨hlen, htail, hroom, hle, hdone⟩ := hw
  have horder := h.order
  have hget : ∀ i, i < s.pushed.length → (s.pushed ++ [frame])[i]? = s.pushed[i]? := fun i hi =>
    getElem?_append_left hi
  refine ⟨?_, h.head, ?_, ?_, ?_, ?_, fun i f hge hf j hj => ?_, trivial, ?_, ?_, h.readerEnd, h.terminated⟩
  · simp only [length_append, length_singleton, htail, h.tail]
    omega
  · simp only [length_append, length_singleton]
    omega
  · simp only [length_append, length_singleton]
    omega
  · rw [take_append_of_le_length horder]
    exact h.taken
  · intro f hf
    rcases mem_append.mp hf with hf | hf
    · exact h.frames f hf
    · exact (mem_singleton.mp hf) ▸ hlen
  · by_cases hi : i < s.pushed.length
    · exact h.slots i f hge (hget i hi ▸ hf) j hj
    · have hlt := (List.getElem?_eq_some_iff.mp hf).1
      simp only [length_append, length_singleton] at hlt
      have hieq : i = s.pushed.length := by omega
      subst hieq
      rw [getElem?_concat_length] at hf
      cases hf
      exact hdone j (by omega)
  · have hr := h.reader
    cases hp : s.readerPc with
    | copy head bytes =>
      rw [hp] at hr
      obtain ⟨h1, h2, h3, h4⟩ := hr
      refine ⟨h1, ?_, h3, fun f hf => h4 f (hget _ h2 ▸ hf)⟩
      simp only [length_append, length_singleton]
      omega
    | _ =>
      rw [hp] at hr
      exact hr
  · have := h.writerEnd
    rw [hpc] at this
    simpa using this

theorem Fifo.take {head : Nat} {bytes : List UInt8} (hpc : s.readerPc = .copy head bytes)
    (hk : ¬bytes.length < sh.frameSize) :
    Fifo sh { s with head := (head + 1) % 2 ^ 64, popped := s.popped ++ [bytes], readerPc := .idle } := by
  have hr := h.reader
  rw [hpc] at hr
  obtain ⟨hhead, hlt, hle, hbytes⟩ := hr
  obtain ⟨f, hf⟩ : ∃ f, s.pushed[s.popped.length]? = some f := ⟨_, getElem?_eq_getElem hlt⟩
  have hlen : f.length = sh.frameSize := h.frames f (mem_of_getElem? hf)
  have heq : bytes = f := by
    rw [hbytes f hf]
    exact take_of_length_le (by omega)
  have hroom := h.room
  refine ⟨h.tail, ?_, ?_, ?_, ?_, h.frames, fun i g hge hg j hj => ?_, ?_, trivial, h.writerEnd, ?_, h.terminated⟩
  · simp only [length_append, length_singleton, hhead, h.head]
    omega
  · simp only [length_append, length_singleton]
    omega
  · simp only [length_append, length_singleton]
    omega
  · simp only [length_append, length_singleton]
    rw [take_add_one, hf, heq, ← h.taken]
    rfl
  · simp only [length_append, length_singleton] at hge
    exact h.slots i g (by omega) hg j hj
  · have hw := h.writer
    cases hp : s.writerPc with
    | copy frame tail k =>
      rw [hp] at hw
      obtain ⟨h1, h2, h3, h4, h5⟩ := hw
      refine ⟨h1, h2, ?_, h4, h5⟩
      simp only [length_append, length_singleton]
      omega
    | _ =>
      rw [hp] at hw
      exact hw
  · have := h.readerEnd
    rw [hpc] at this
    simpa using this

end

/-! ## The end of the stream -/

/-- The tail that a pop loaded, from its look at the counters until its compare-and-swap. -/
def loaded : ReaderPc → Option Nat
  | .checkAlive tail | .checkEver tail | .freeze tail => some tail
  | _ => none

/-- When the kernel clears the writer's word, no frame was pushed since a pop that is still on its way to the
compare-and-swap has loaded the tail. -/
def Unhurried (s : Stream) : Event → Prop
  | .writer .go => s.writerPc = .unmapped → loaded s.readerPc = none ∨ loaded s.readerPc = some s.tail
  | _ => True

/-- A pop on its way to the compare-and-swap sees a dead writer only when nothing is left, and a closed stream stays
closed. -/
structure Closing (s : Stream) : Prop where
  window : loaded s.readerPc ≠ none → s.writer.alive = .dead → s.popped.length = s.pushed.length
  thawed : ∀ tail, s.readerPc = .checkEver tail ∨ s.readerPc = .freeze tail → s.writer.alive ≠ .frozen
  closed : s.closed = true → s.writer.alive = .frozen ∧ s.popped.length = s.pushed.length

theorem init_closing : Closing init where
  window := fun h => absurd rfl h
  thawed := fun _ h => by rcases h with h | h <;> cases h
  closed := nofun

/-! ## The writer -/

/-- An access of the writer keeps the frames, and this is what it does to the words that a pop looks at. -/
structure Wrote (sh : Shape) (s : Stream) (a : Act) (t : Stream) : Prop where
  fifo : Fifo sh t
  readerPc : t.readerPc = s.readerPc
  closed : t.closed = s.closed
  popped : t.popped = s.popped
  effect : t.writer.alive = s.writer.alive ∧ t.pushed = s.pushed ∨
    s.writer.alive ≠ .frozen ∧ t.writer.alive = .alive ∨
    a = .go ∧ s.writerPc = .unmapped ∧ t.pushed = s.pushed ∧ s.writer.alive = .alive ∧ t.writer.alive = .dead

theorem Fifo.writerMoves (h : Fifo sh s) {a : Act} {pc : WriterPc} {w : EndWords} (hok : s.WriterOk sh pc)
    (hold : s.writerPc ≠ .detached) (hnew : pc ≠ .detached) (hw : w.alive = s.writer.alive) :
    Wrote sh s a { s with writerPc := pc, writer := w } :=
  ⟨h.writerControl hok (iff_of_true hnew (hw.trans (h.writerEnd.mp hold))) h.readerEnd h.terminated, rfl, rfl, rfl,
    .inl ⟨hw, rfl⟩⟩

theorem Fifo.writerStep (h : Fifo sh s) {a : Act} (hs : s.writerStep sh a = some t) : Wrote sh s a t := by
  have hw := h.writer
  cases a with
  | pop => cases hs
  | attach streaming =>
    simp only [Stream.writerStep] at hs
    split at hs
    · split at hs
      · rename_i hdead
        cases hs
        exact ⟨h.writerControl trivial (by simp) h.readerEnd h.terminated, rfl, rfl, rfl,
          .inr (.inl ⟨by rw [hdead]; exact nofun, rfl⟩)⟩
      · cases hs
    · cases hs
  | push frame =>
    simp only [Stream.writerStep] at hs
    split at hs
    · rename_i hpc
      split at hs
      · rename_i hlen
        cases hs
        exact h.writerMoves hlen (by rw [hpc]; exact nofun) nofun rfl
      · cases hs
    · cases hs
  | giveUp =>
    simp only [Stream.writerStep] at hs
    split at hs
    · rename_i frame hpc
      cases hs
      exact h.writerMoves trivial (by rw [hpc]; exact nofun) nofun rfl
    · cases hs
  | drop =>
    cases hpc : s.writerPc <;> simp only [Stream.writerStep, hpc] at hs <;> cases hs <;>
      exact h.writerMoves trivial (by rw [hpc]; exact nofun) nofun rfl
  | go =>
    simp only [Stream.writerStep] at hs
    have hne : s.writerPc ≠ .detached := fun hpc => by
      rw [hpc] at hs
      cases hs
    have halive := h.writerEnd.mp hne
    generalize hpc : s.writerPc = pc at hs hw
    cases pc with
    | detached | idle => cases hs
    | attaching | linking =>
      cases hs
      exact h.writerMoves trivial hne nofun rfl
    | loadTail frame =>
      cases hs
      exact h.writerMoves ⟨hw, rfl⟩ hne nofun rfl
    | loadHead frame tail =>
      obtain ⟨hlen, htail⟩ := hw
      simp only [htail, h.used] at hs
      split at hs
      · rename_i hroom
        cases hs
        have horder := h.order
        refine h.writerMoves ⟨hlen, rfl, by omega, Nat.zero_le _, fun j hj => ?_⟩ hne nofun rfl
        exact absurd hj (Nat.not_lt_zero j)
      split at hs <;> cases hs <;> exact h.writerMoves hlen hne nofun rfl
    | copy frame tail k =>
      dsimp only at hs
      split at hs <;> rename_i hk <;> cases hs
      · exact ⟨h.copyByte hpc hk, rfl, rfl, rfl, .inl ⟨rfl, rfl⟩⟩
      · exact ⟨h.publish hpc hk, rfl, rfl, rfl, .inr (.inl ⟨by rw [halive]; exact nofun, halive⟩)⟩
    | checkAlive frame | checkEver frame =>
      dsimp only at hs
      split at hs <;> cases hs <;> exact h.writerMoves hw hne nofun rfl
    | freeze frame =>
      have hre := h.readerEnd
      have hwe : WriterPc.idle ≠ .detached ↔ s.writer.alive = .alive := iff_of_true nofun halive
      dsimp only at hs
      split at hs
      · rename_i hdead
        cases hs
        rw [hdead] at hre
        exact ⟨h.writerControl trivial hwe (by simpa using hre) fun _ => rfl, rfl, rfl, rfl, .inl ⟨rfl, rfl⟩⟩
      · rename_i hfrozen
        cases hs
        exact ⟨h.writerControl trivial hwe hre fun _ => hfrozen, rfl, rfl, rfl, .inl ⟨rfl, rfl⟩⟩
      · cases hs
        exact h.writerMoves hw hne nofun rfl
    | blocked frame =>
      cases hs
      exact h.writerMoves hw hne nofun rfl
    | unmapped =>
      cases hs
      exact ⟨h.writerControl trivial (by simp [clearAlive, halive]) h.readerEnd h.terminated, rfl, rfl, rfl,
        .inr (.inr ⟨rfl, hpc, rfl, halive, by simp [clearAlive, halive]⟩)⟩

theorem Closing.writerStep (h : Closing s) (hf : Fifo sh s) {a : Act} (hm : s.Unhurried (.writer a))
    (hs : s.writerStep sh a = some t) : Closing t := by
  obtain ⟨-, hpc, hclosed, hpopped, heff⟩ := hf.writerStep hs
  rcases heff with ⟨halive, hpushed⟩ | ⟨hthawed, halive⟩ | ⟨rfl, hun, hpushed, hold, hnew⟩
  · refine ⟨?_, ?_, ?_⟩
    · rw [hpc, halive, hpopped, hpushed]
      exact h.window
    · rw [hpc, halive]
      exact h.thawed
    · rw [hclosed, halive, hpopped, hpushed]
      exact h.closed
  · refine ⟨fun _ hd => ?_, fun _ _ hfz => ?_, fun hc => absurd (h.closed (hclosed ▸ hc)).1 hthawed⟩
    · rw [halive] at hd
      cases hd
    · rw [halive] at hfz
      cases hfz
  · refine ⟨fun hl _ => ?_, fun _ _ hfz => ?_, fun hc => ?_⟩
    · -- the pop on its way has loaded the tail as it is now, and its head is that tail
      rw [hpc] at hl
      rw [hpopped, hpushed]
      have htail := (hm hun).resolve_left hl
      apply hf.empty_iff.mp
      have hr := hf.reader
      cases hp : s.readerPc with
      | checkAlive tail | checkEver tail | freeze tail =>
        rw [hp] at hr htail
        exact hr.symm.trans (Option.some.inj htail)
      | _ =>
        rw [hp] at htail
        cases htail
    · rw [hnew] at hfz
      cases hfz
    · have := (h.closed (hclosed ▸ hc)).1
      rw [hold] at this
      cases this

theorem Closing.outside (h : Closing s) {pc : ReaderPc} (hpc : loaded pc = none) {r : EndWords} :
    Closing { s with readerPc := pc, reader := r } where
  window := fun hl => absurd hpc hl
  thawed := fun tail hp => by rcases hp with rfl | rfl <;> cases hpc
  closed := h.closed

/-! ## The reader -/

theorem Fifo.readerMoves (h : Fifo sh s) {pc : ReaderPc} {r : EndWords} (hok : s.ReaderOk sh pc)
    (hpc : loaded pc = none) (hold : s.readerPc ≠ .detached) (hnew : pc ≠ .detached) (hr : r.alive = s.reader.alive) :
    Fifo sh { s with readerPc := pc, reader := r } ∧ (Closing s → Closing { s with readerPc := pc, reader := r }) :=
  ⟨h.readerControl hok h.writerEnd (iff_of_true hnew (hr.trans (h.readerEnd.mp hold))) fun hb => hr.trans
    (h.terminated hb), fun hc => hc.outside hpc⟩

theorem Fifo.readerStep (h : Fifo sh s) {a : Act} (hs : s.readerStep sh a = some t) :
    Fifo sh t ∧ (Closing s → Closing t) := by
  have hr := h.reader
  cases a with
  | push frame => cases hs
  | attach streaming =>
    simp only [Stream.readerStep] at hs
    split at hs
    · split at hs
      · rename_i hdead
        cases hs
        refine ⟨h.readerControl trivial h.writerEnd (by simp) fun hb => ?_, fun hc => hc.outside rfl⟩
        have h1 := h.terminated hb
        rw [hdead] at h1
        cases h1
      · cases hs
    · cases hs
  | pop | giveUp =>
    simp only [Stream.readerStep] at hs
    split at hs
    · rename_i hpc
      cases hs
      exact h.readerMoves trivial rfl (by rw [hpc]; exact nofun) nofun rfl
    · cases hs
  | drop =>
    cases hpc : s.readerPc <;> simp only [Stream.readerStep, hpc] at hs <;> cases hs <;>
      exact h.readerMoves trivial rfl (by rw [hpc]; exact nofun) nofun rfl
  | go =>
    simp only [Stream.readerStep] at hs
    have hne : s.readerPc ≠ .detached := fun hpc => by
      rw [hpc] at hs
      cases hs
    have halive := h.readerEnd.mp hne
    have hre : ∀ {pc : ReaderPc}, pc ≠ .detached → (pc ≠ .detached ↔ s.reader.alive = .alive) := fun hnew =>
      iff_of_true hnew halive
    generalize hpc : s.readerPc = pc at hs hr
    cases pc with
    | detached | idle => cases hs
    | attaching | linking | blocked =>
      cases hs
      exact h.readerMoves trivial rfl hne nofun rfl
    | loadHead =>
      cases hs
      exact h.readerMoves rfl rfl hne nofun rfl
    | loadTail head =>
      dsimp only at hs
      split at hs
      · rename_i hdiff
        cases hs
        have hlt : s.popped.length < s.pushed.length := by
          have := h.order
          have hlen := mt h.empty_iff.mpr fun he : s.head = s.tail => hdiff (hr ▸ he)
          omega
        exact h.readerMoves ⟨hr, hlt, Nat.zero_le _, fun f _ => rfl⟩ rfl hne nofun rfl
      rename_i heq
      split at hs <;> cases hs
      · exact h.readerMoves trivial rfl hne nofun rfl
      · have hhead : s.head = s.tail := hr.symm.trans (not_not.mp heq)
        refine ⟨h.readerControl hhead.symm h.writerEnd (hre nofun) h.terminated, fun hc =>
          ⟨fun _ _ => h.empty_iff.mp hhead, fun _ hp => ?_, hc.closed⟩⟩
        rcases hp with hp | hp <;> cases hp
    | copy head bytes =>
      obtain ⟨hhead, hlt, hle, hbytes⟩ := hr
      dsimp only at hs
      split at hs
      · rename_i hk
        cases hs
        refine h.readerMoves ⟨hhead, hlt, ?_, fun f hf => ?_⟩ rfl hne nofun rfl
        · simp only [length_append, length_singleton]
          omega
        · have hlen : f.length = sh.frameSize := h.frames f (mem_of_getElem? hf)
          have hbyte : s.slots (head % sh.frameCount) bytes.length = f.getD bytes.length 0 := by
            rw [hhead, h.head, sh.slot_eq]
            exact h.slots _ f le_rfl hf _ hk
          rw [hbyte, length_append, length_singleton, take_add_one, ← hbytes f hf,
            getElem?_eq_getElem (by omega), getD_eq_getElem?_getD, getElem?_eq_getElem (by omega)]
          rfl
      · rename_i hk
        cases hs
        refine ⟨h.take hpc hk, fun hc => ⟨fun hl => absurd rfl hl, fun _ hp => ?_, fun hclosed => ?_⟩⟩
        · rcases hp with hp | hp <;> cases hp
        · have := (hc.closed hclosed).2
          omega
    | checkAlive tail =>
      dsimp only at hs
      split at hs <;> cases hs
      · rename_i hdead
        refine ⟨h.readerControl hr h.writerEnd (hre nofun) h.terminated, fun hc =>
          ⟨fun _ _ => hc.window (by rw [hpc]; exact nofun) hdead, fun _ _ hfz => ?_, hc.closed⟩⟩
        simp only [hdead] at hfz
        cases hfz
      · exact h.readerMoves trivial rfl hne nofun rfl
    | checkEver tail =>
      dsimp only at hs
      split at hs <;> cases hs
      · exact ⟨h.readerControl hr h.writerEnd (hre nofun) h.terminated, fun hc =>
          ⟨fun _ hd => hc.window (by rw [hpc]; exact nofun) hd, fun _ _ => hc.thawed tail (.inl hpc), hc.closed⟩⟩
      · exact h.readerMoves trivial rfl hne nofun rfl
    | freeze tail =>
      have hwe := h.writerEnd
      dsimp only at hs
      split at hs
      · rename_i hdead
        cases hs
        rw [hdead] at hwe
        refine ⟨h.readerControl trivial (by simpa using hwe) (hre nofun) h.terminated, fun hc =>
          ⟨fun hl => absurd rfl hl, fun _ hp => ?_, fun _ => ⟨rfl, hc.window (by rw [hpc]; exact nofun) hdead⟩⟩⟩
        rcases hp with hp | hp <;> cases hp
      · rename_i hfrozen
        cases hs
        exact ⟨h.readerControl trivial hwe (hre nofun) h.terminated,
          fun hc => absurd hfrozen (hc.thawed tail (.inr hpc))⟩
      · cases hs
        exact h.readerMoves trivial rfl hne nofun rfl
    | unmapped =>
      cases hs
      refine ⟨h.readerControl trivial h.writerEnd (by simp [clearAlive, halive]) fun hb => ?_, fun hc => hc.outside rfl⟩
      -- a reader at work has not been reported as gone
      have h1 := h.terminated hb
      rw [halive] at h1
      cases h1

theorem Fifo.next (h : Fifo sh s) {e : Event} (hs : s.next sh e = some t) : Fifo sh t := by
  cases e with
  | writer a => exact (h.writerStep hs).fifo
  | reader a => exact (h.readerStep hs).1

/-! ## Runs -/

/-- The frames popped are the first of those pushed, the slot that a push writes holds no frame still to be popped, and
a push that reported its reader gone was right for good. -/
structure Delivers (sh : Shape) (s : Stream) : Prop where
  order : s.popped = s.pushed.take s.popped.length
  slot : ∀ frame tail k, s.writerPc = .copy frame tail k →
    ∀ i < s.pushed.length, i % sh.frameCount = tail % sh.frameCount → i < s.popped.length
  terminated : s.terminated = true → s.reader.alive = .frozen ∧ s.readerPc = .detached

theorem Fifo.delivers (h : Fifo sh s) : Delivers sh s where
  order := h.taken
  slot := by
    intro frame tail k hpc i hi heq
    have hw := h.writer
    rw [hpc] at hw
    obtain ⟨-, htail, hroom, -⟩ := hw
    by_contra hge
    rw [htail, h.tail, sh.slot_eq] at heq
    exact h.slot_ne hroom (by omega) hi heq
  terminated := by
    intro hb
    have hfrozen := h.terminated hb
    refine ⟨hfrozen, ?_⟩
    by_contra hne
    have := h.readerEnd.mp hne
    rw [hfrozen] at this
    cases this

/-- In every run a brook delivers its frames in order and intact. A pop that reports the end has left no frame behind,
and no writer can come, when no frame is pushed between a pop's look at the tail and the end of the writer. -/
theorem brook_delivers_before_end {es : List Event} {s : Stream}
    (run : Run (Step sh) (fun _ _ => True) Stream.init es s) :
    Delivers sh s ∧ (Run (Step sh) Unhurried Stream.init es s → s.closed = true →
    s.popped = s.pushed ∧ s.writer.alive = .frozen ∧ s.writerPc = .detached) := by
  have hfifo : Fifo sh s := run.invariant (fun _ _ _ _ hs h => h.next hs) (init_fifo sh)
  refine ⟨hfifo.delivers, fun hrun hc => ?_⟩
  have hboth : Fifo sh s ∧ Closing s := by
    apply hrun.invariant (P := fun s => Fifo sh s ∧ Closing s) _ ⟨init_fifo sh, init_closing⟩
    intro s e t hm hs h
    refine ⟨h.1.next hs, ?_⟩
    cases e with
    | writer a => exact h.2.writerStep h.1 hm hs
    | reader a => exact (h.1.readerStep hs).2 h.2
  obtain ⟨hfrozen, hlen⟩ := hboth.2.closed hc
  refine ⟨?_, hfrozen, ?_⟩
  · rw [hfifo.taken, hlen, take_length]
  · by_contra hne
    have := hfifo.writerEnd.mp hne
    rw [hfrozen] at this
    cases this

/-- Two slots of eight bytes. -/
def twoSlots : Shape := ⟨8, 1, by decide⟩

/-- Both ends are opened. -/
def opened : List Event :=
  [.reader (.attach false), .reader .go, .reader .go, .writer (.attach false), .writer .go, .writer .go]

def frameOf (b : UInt8) : List UInt8 := List.replicate 7 b ++ [0]

/-- A frame is pushed. -/
def onePush (b : UInt8) : List Event := .writer (.push (frameOf b)) :: List.replicate 11 (.writer .go)

/-- A frame is popped. -/
def onePop : List Event := .reader .pop :: List.replicate 11 (.reader .go)

/-- The writer's end is taken away. -/
def writerGone : List Event := [.writer .drop, .writer .go]

/-- Two frames are pushed and popped, and a third one; it is popped when the writer has gone, and the next pop reports
the end. -/
def inOrder : List Event :=
  opened ++ onePush 1 ++ onePush 2 ++ onePop ++ onePop ++ onePush 3 ++ writerGone ++ onePop ++
    [.reader .pop, .reader .go, .reader .go, .reader .go, .reader .go, .reader .go]

/-- The pop looks at the tail before the second push, and at the writer after its release. -/
def hurried : List Event :=
  opened ++ onePush 1 ++ onePop ++ [.reader .pop, .reader .go, .reader .go] ++ onePush 2 ++ writerGone ++
    [.reader .go, .reader .go, .reader .go]

theorem brook_delivers_before_end_three : ∃ s, Run (Step twoSlots) Unhurried Stream.init inOrder s ∧ s.closed = true ∧
    s.pushed = [frameOf 1, frameOf 2, frameOf 3] ∧ s.popped = s.pushed ∧ Delivers twoSlots s := by
  obtain ⟨s, hcareful, hclosed, hpushed⟩ : ∃ s, Run (Step twoSlots) Unhurried Stream.init inOrder s ∧
      s.closed = true ∧ s.pushed = [frameOf 1, frameOf 2, frameOf 3] := by
    refine exec_reaches (fun s _ => decide (s.writerPc = .unmapped → loaded s.readerPc = none ∨
      loaded s.readerPc = some s.tail)) (fun h => h) (fun {s e} h => ?_) (by decide +kernel)
    cases e with
    | reader a => trivial
    | writer a =>
      cases a with
      | go =>
        exact (of_decide_eq_true h : s.writerPc = .unmapped →
          loaded s.readerPc = none ∨ loaded s.readerPc = some s.tail)
      | _ => trivial
  obtain ⟨hdel, hend⟩ := brook_delivers_before_end (hcareful.imp fun _ _ _ => trivial)
  exact ⟨s, hcareful, hclosed, hpushed, (hend hcareful hclosed).1, hdel⟩

/-- The pop reports the end of the stream while the second frame is still in its slot. -/
theorem closed_with_frame_left : ∃ s, Run (Step twoSlots) (fun _ _ => True) Stream.init hurried s ∧ s.closed = true ∧
    s.pushed = [frameOf 1, frameOf 2] ∧ s.popped = [frameOf 1] :=
  run_reaches (fun h => h) (by decide +kernel)

end Stream

end BoxOS.Brook
