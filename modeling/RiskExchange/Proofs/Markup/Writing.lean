import RiskExchange.Markup.Writer
import RiskExchange.Proofs.Markup.Rendering

/-! # Writing — what reaches a device that has room for so many bytes

    The calls of a device are recorded with their answers. A computation hands
    bytes to a device (`Hands`) if it makes calls by which all of them are
    taken, or, where there is not enough room, as many as there is room for, up
    to a call that fails and is the last. This is kept by sequences and loops,
    so whatever is made of writing buffers hands on the bytes of the buffers
    (`hands_putEach`). -/

namespace RiskExchange.Markup

namespace Writing

variable {σ α β : Type} {m : Writing σ α} {f : α → Writing σ β} {s s' : σ}

theorem run_bind_of_ok {a : α} (h : m.run s = (s', .ok a)) :
    (m >>= f).run s = (f a).run s' := by
  show (Writing.bind m f).run s = _
  simp only [Writing.bind, h]

theorem run_bind_of_error {e : String} (h : m.run s = (s', .error e)) :
    (m >>= f).run s = (s', .error e) := by
  show (Writing.bind m f).run s = _
  simp only [Writing.bind, h]

instance : LawfulMonad (Writing σ) := by
  refine LawfulMonad.mk' (Writing σ) ?_ (fun _ _ => rfl) ?_
  · intro α m
    refine congrArg Writing.mk (funext fun s => ?_)
    rcases m.run s with ⟨s', result⟩
    cases result with
    | error e => rfl
    | ok a => rfl
  · intro α β γ m f g
    refine congrArg Writing.mk (funext fun s => ?_)
    show ((m >>= f) >>= g).run s = (m >>= fun a => f a >>= g).run s
    rcases h : m.run s with ⟨s', result⟩
    cases result with
    | error e =>
        rw [run_bind_of_error h, run_bind_of_error (run_bind_of_error h)]
    | ok a =>
        rw [run_bind_of_ok h]
        rcases hf : (f a).run s' with ⟨t, result⟩
        cases result with
        | error e =>
            rw [run_bind_of_error hf,
              run_bind_of_error ((run_bind_of_ok h).trans hf)]
        | ok b =>
            rw [run_bind_of_ok hf, run_bind_of_ok ((run_bind_of_ok h).trans hf)]

end Writing

/-! ## Calls -/

/-- A call of a device, and its answer. -/
inductive Call where
  | offered (bytes : List UInt8) (answer : Except String Nat)
  | flushed (answer : Except String Unit)

namespace Call

/-- The error of a call that has failed; to take nothing is to fail. -/
def error? : Call → Option String
  | .offered _ (.error e) | .flushed (.error e) => some e
  | .offered _ (.ok 0) => some wroteNothing
  | .offered _ (.ok (_ + 1)) | .flushed (.ok ()) => none

/-- The bytes that are taken by a call. -/
def taken : Call → List UInt8
  | .offered bytes (.ok n) => bytes.take n
  | _ => []

end Call

/-- The bytes that are taken by calls. -/
def accepted (calls : List Call) : List UInt8 := calls.flatMap Call.taken

namespace Device

variable {σ : Type}

/-- The device with a record of its calls. -/
def recorded (dev : Device σ) : Device (σ × List Call) where
  offer bytes := ⟨fun (s, calls) =>
    let (s, answer) := (dev.offer bytes).run s
    ((s, calls ++ [.offered bytes answer]), answer)⟩
  flush := ⟨fun (s, calls) =>
    let (s, answer) := dev.flush.run s
    ((s, calls ++ [.flushed answer]), answer)⟩

variable {dev : Device σ} {s s' : σ}

theorem recorded_offer {bytes : List UInt8} {answer : Except String Nat}
    (h : (dev.offer bytes).run s = (s', answer)) (calls : List Call) :
    (dev.recorded.offer bytes).run (s, calls)
      = ((s', calls ++ [.offered bytes answer]), answer) := by
  simp only [recorded, h]

theorem recorded_flush {answer : Except String Unit}
    (h : dev.flush.run s = (s', answer)) (calls : List Call) :
    dev.recorded.flush.run (s, calls)
      = ((s', calls ++ [.flushed answer]), answer) := by
  simp only [recorded, h]

/-- The device has room for so many bytes in all: it takes some of what it is
    offered as long as there is room, and fails from then on. -/
structure Limited (dev : Device σ) (room : σ → Nat) : Prop where
  takes : ∀ s bytes, bytes ≠ [] → 0 < room s → ∃ n s',
    (dev.offer bytes).run s = (s', .ok n) ∧ 0 < n ∧ n ≤ bytes.length ∧
      room s' + n = room s
  refuses : ∀ s bytes, bytes ≠ [] → room s = 0 → ∃ s' answer,
    (dev.offer bytes).run s = (s', answer) ∧
      (answer = .ok 0 ∨ ∃ e, answer = .error e)
  flushes : ∀ s, ∃ s', dev.flush.run s = (s', .ok ()) ∧ room s' = room s

end Device

/-! ## Handing on bytes -/

section Hands

variable {σ : Type} {room : σ → Nat} {bytes more : List UInt8}
  {m m' : Writing (σ × List Call) Unit}

/-- From the first state on, the bytes are taken as far as there is room. The
    calls are successful, or else all but the last, whose error is passed
    on. -/
inductive Handed (room : σ → Nat) (bytes : List UInt8) :
    σ × List Call → (σ × List Call) × Except String Unit → Prop where
  | whole {s s' : σ} {calls new : List Call}
      (hnew : ∀ c ∈ new, c.error? = none) (hbytes : accepted new = bytes)
      (hroom : room s' + bytes.length = room s) :
      Handed room bytes (s, calls) ((s', calls ++ new), .ok ())
  | cut {s s' : σ} {calls new : List Call} {last : Call} {e : String}
      (hnew : ∀ c ∈ new, c.error? = none) (hlast : last.error? = some e)
      (hbytes : accepted (new ++ [last]) = bytes.take (room s))
      (hroom : room s < bytes.length) :
      Handed room bytes (s, calls) ((s', calls ++ (new ++ [last])), .error e)

/-- The computation hands the bytes on, whatever has been called before. -/
def Hands (room : σ → Nat) (m : Writing (σ × List Call) Unit)
    (bytes : List UInt8) : Prop :=
  ∀ start, Handed room bytes start (m.run start)

theorem hands_pure : Hands room (pure ()) [] := by
  rintro ⟨s, calls⟩
  have h : Handed room [] (s, calls) ((s, calls ++ []), .ok ()) :=
    .whole (fun _ hc => nomatch hc) rfl rfl
  rw [List.append_nil] at h
  exact h

theorem accepted_append (calls calls' : List Call) :
    accepted (calls ++ calls') = accepted calls ++ accepted calls' :=
  List.flatMap_append

/-- What is handed on behind bytes that have all been taken. -/
theorem Handed.trans {start mid : σ × List Call}
    {ending : (σ × List Call) × Except String Unit}
    (h : Handed room bytes start (mid, .ok ()))
    (h' : Handed room more mid ending) :
    Handed room (bytes ++ more) start ending := by
  cases h with
  | @whole s t calls new hnew hbytes hroom =>
      cases h' with
      | @whole _ u _ later hlater hmore hroom' =>
          rw [List.append_assoc]
          refine .whole ?_ ?_ ?_
          · exact List.forall_mem_append.mpr ⟨hnew, hlater⟩
          · rw [accepted_append, hbytes, hmore]
          · rw [List.length_append]
            omega
      | @cut _ u _ later last e hlater hlast hmore hroom' =>
          have hfit : bytes.length ≤ room s := by omega
          have hleft : room s - bytes.length = room t := by omega
          rw [List.append_assoc, ← List.append_assoc new]
          refine .cut ?_ hlast ?_ ?_
          · exact List.forall_mem_append.mpr ⟨hnew, hlater⟩
          · rw [List.append_assoc, accepted_append, hbytes, hmore,
              List.take_append, List.take_of_length_le hfit, hleft]
          · rw [List.length_append]
            omega

/-- What follows hands its bytes on behind those of the first part, and does
    not run if the first part is cut short. -/
theorem Hands.bind (h : Hands room m bytes) (h' : Hands room m' more) :
    Hands room (m >>= fun _ => m') (bytes ++ more) := by
  rintro ⟨s, calls⟩
  have hfirst := h (s, calls)
  rcases hrun : m.run (s, calls) with ⟨mid, result⟩
  rw [hrun] at hfirst
  cases result with
  | ok _ =>
      rw [Writing.run_bind_of_ok hrun]
      exact hfirst.trans (h' mid)
  | error e =>
      rw [Writing.run_bind_of_error hrun]
      cases hfirst with
      | cut hnew hlast hbytes hroom =>
          refine .cut hnew hlast ?_ ?_
          · rw [hbytes, List.take_append_of_le_length (Nat.le_of_lt hroom)]
          · rw [List.length_append]
            omega

theorem hands_forM {α : Type} {f : α → Writing (σ × List Call) Unit}
    {g : α → List UInt8} (h : ∀ a, Hands room (f a) (g a)) (as : List α) :
    Hands room (as.forM f) (as.flatMap g) := by
  induction as with
  | nil => exact hands_pure
  | cons a rest ih => exact (h a).bind ih

section Ending

variable {s s' : σ} {calls : List Call} {result : Except String Unit}

/-- From the first call on, the device has taken as much as it had room for. -/
theorem Handed.accepted_eq
    (h : Handed room bytes (s, []) ((s', calls), result)) :
    accepted calls = bytes.take (room s) := by
  cases h with
  | whole _ hbytes hroom =>
      rw [List.nil_append, hbytes, List.take_of_length_le]
      omega
  | cut _ _ hbytes _ => exact hbytes

theorem Handed.failed_iff {start : List Call}
    (h : Handed room bytes (s, start) ((s', calls), result)) :
    (∃ e, result = .error e) ↔ room s < bytes.length := by
  cases h with
  | whole _ _ hroom =>
      constructor
      · rintro ⟨e, he⟩
        exact nomatch he
      · omega
  | @cut _ _ _ _ _ e _ _ _ hroom => exact ⟨fun _ => hroom, fun _ => ⟨e, rfl⟩⟩

/-- Nothing is called behind a call that fails, and its error is the result. -/
theorem Handed.last_of_error
    (h : Handed room bytes (s, []) ((s', calls), result))
    {before after : List Call} {c : Call} {e : String}
    (hcalls : calls = before ++ c :: after) (hc : c.error? = some e) :
    after = [] ∧ result = .error e := by
  have hfails {new : List Call} (hnew : ∀ c ∈ new, c.error? = none) :
      c ∉ new := fun hmem => nomatch hc.symm.trans (hnew c hmem)
  cases h with
  | whole hnew _ _ =>
      refine absurd ?_ (hfails hnew)
      rw [List.nil_append] at hcalls
      rw [hcalls]
      exact List.mem_append_right _ (List.mem_cons_self ..)
  | @cut _ _ _ new last e' hnew hlast _ _ =>
      rw [List.nil_append] at hcalls
      rcases List.eq_nil_or_concat after with rfl | ⟨more, final, rfl⟩
      · obtain ⟨-, heq⟩ := List.append_inj' hcalls rfl
        obtain rfl := List.singleton_inj.mp heq
        rw [hlast] at hc
        exact ⟨rfl, congrArg Except.error (Option.some.inj hc)⟩
      · -- a call that is not the last is one of the successful ones
        refine absurd ?_ (hfails hnew)
        have hsplit : new ++ [last] = (before ++ c :: more) ++ [final] := by
          rw [hcalls, List.concat_eq_append, List.append_assoc]
          rfl
        obtain ⟨hinit, -⟩ := List.append_inj' hsplit rfl
        rw [hinit]
        exact List.mem_append_right _ (List.mem_cons_self ..)

end Ending

/-- An offer to a device without room fails, and the error is passed on. -/
theorem handed_of_refused {dev : Device σ} {s s' : σ} {answer : Except String Nat}
    {byte : UInt8} {rest : List UInt8}
    (hoffer : (dev.offer (byte :: rest)).run s = (s', answer))
    (hanswer : answer = .ok 0 ∨ ∃ e, answer = .error e) (hroom : room s = 0)
    (calls : List Call) :
    Handed room (byte :: rest) (s, calls)
      ((dev.recorded.putAll 0 (byte :: rest)).run (s, calls)) := by
  have hrun := Device.recorded_offer hoffer calls
  have hcut {e : String}
      (he : (Call.offered (byte :: rest) answer).error? = some e)
      (htaken : (Call.offered (byte :: rest) answer).taken = []) :
      Handed room (byte :: rest) (s, calls)
        ((s', calls ++ ([] ++ [.offered (byte :: rest) answer])), .error e) := by
    refine .cut (fun _ hc => nomatch hc) he ?_ ?_
    · rw [hroom]
      simp [accepted, htaken]
    · rw [hroom]
      exact Nat.succ_pos _
  rw [Device.putAll]
  rcases hanswer with rfl | ⟨e, rfl⟩
  · rw [Writing.run_bind_of_ok hrun]
    exact hcut rfl rfl
  · rw [Writing.run_bind_of_error hrun]
    exact hcut rfl rfl

/-- A device with limited room is handed the bytes that it has not taken yet,
    however few it takes at a time. -/
theorem hands_putAll {dev : Device σ} (h : dev.Limited room) (taken : Nat)
    (bytes : List UInt8) :
    Hands room (dev.recorded.putAll taken bytes) (bytes.drop taken) := by
  induction bytes generalizing taken with
  | nil =>
      rw [List.drop_nil]
      cases taken <;> exact hands_pure
  | cons byte rest ih =>
      cases taken with
      | succ taken => exact ih taken
      | zero =>
          rintro ⟨s, calls⟩
          rw [List.drop_zero]
          rcases Nat.eq_zero_or_pos (room s) with hroom | hroom
          · obtain ⟨s', answer, hoffer, hanswer⟩ :=
              h.refuses s (byte :: rest) (List.cons_ne_nil _ _) hroom
            exact handed_of_refused hoffer hanswer hroom calls
          · -- the rest is handed on behind what is taken at once
            obtain ⟨n, s', hoffer, hpos, hle, hleft⟩ :=
              h.takes s (byte :: rest) (List.cons_ne_nil _ _) hroom
            obtain ⟨k, rfl⟩ :=
              Nat.exists_eq_succ_of_ne_zero (Nat.ne_of_gt hpos)
            have hfirst : Handed room ((byte :: rest).take (k + 1)) (s, calls)
                ((s', calls ++ [.offered (byte :: rest) (.ok (k + 1))]),
                  .ok ()) := by
              refine .whole ?_ ?_ ?_
              · exact List.forall_mem_singleton.mpr rfl
              · exact List.append_nil _
              · rw [List.length_take, Nat.min_eq_left hle]
                exact hleft
            have hwhole := hfirst.trans (ih k _)
            rw [← List.drop_succ_cons, List.take_append_drop] at hwhole
            rw [Device.putAll,
              Writing.run_bind_of_ok (Device.recorded_offer hoffer calls)]
            exact hwhole

/-- Buffers are handed on one behind the other. -/
theorem hands_putEach {dev : Device σ} (h : dev.Limited room)
    (buffers : List (List UInt8)) :
    Hands room (dev.recorded.putEach buffers) buffers.flatten := by
  rw [← List.flatMap_id]
  exact hands_forM (hands_putAll h 0) buffers

theorem hands_flush {dev : Device σ} (h : dev.Limited room) :
    Hands room dev.recorded.flush [] := by
  rintro ⟨s, calls⟩
  obtain ⟨s', hflush, hroom⟩ := h.flushes s
  rw [Device.recorded_flush hflush]
  exact .whole (List.forall_mem_singleton.mpr rfl) rfl hroom

end Hands

/-! ## Recording changes nothing -/

section Records

variable {σ α β : Type} {m : Writing (σ × List Call) α} {n : Writing σ α}
  {f : α → Writing (σ × List Call) β} {g : α → Writing σ β} {dev : Device σ}

/-- The first computation does what the second does, and records calls. -/
def Records (m : Writing (σ × List Call) α) (n : Writing σ α) : Prop :=
  ∀ s calls, n.run s = ((m.run (s, calls)).1.1, (m.run (s, calls)).2)

theorem records_pure (a : α) :
    Records (pure a : Writing (σ × List Call) α) (pure a) := fun _ _ => rfl

theorem Records.bind (h : Records m n) (hf : ∀ a, Records (f a) (g a)) :
    Records (m >>= f) (n >>= g) := by
  intro s calls
  have hfirst := h s calls
  rcases hrun : m.run (s, calls) with ⟨⟨t, calls'⟩, result⟩
  rw [hrun] at hfirst
  cases result with
  | error e =>
      rw [Writing.run_bind_of_error hrun, Writing.run_bind_of_error hfirst]
  | ok a =>
      rw [Writing.run_bind_of_ok hrun, Writing.run_bind_of_ok hfirst]
      exact hf a t calls'

theorem records_putAll (taken : Nat) (bytes : List UInt8) :
    Records (dev.recorded.putAll taken bytes) (dev.putAll taken bytes) := by
  induction bytes generalizing taken with
  | nil => cases taken <;> exact records_pure ()
  | cons byte rest ih =>
      cases taken with
      | succ taken => exact ih taken
      | zero =>
          rw [Device.putAll, Device.putAll]
          refine Records.bind (fun _ _ => rfl) fun n => ?_
          cases n with
          | zero => exact fun _ _ => rfl
          | succ n => exact ih n

theorem records_putEach (buffers : List (List UInt8)) :
    Records (dev.recorded.putEach buffers) (dev.putEach buffers) := by
  induction buffers with
  | nil => exact records_pure ()
  | cons buffer rest ih => exact (records_putAll 0 buffer).bind fun _ => ih

end Records

/-! ## Documents -/

/-- The buffers of a piece make up its line break and its text. -/
theorem flatten_parts (indent : Nat) (p : Cursor) (piece : Piece) :
    (breakParts indent p piece ++ piece.parts).flatten
      = breakBefore indent p piece ++ piece.written := by
  have hbreak : (breakParts indent p piece).flatten
      = breakBefore indent p piece := by
    rw [breakParts]
    cases breakBefore indent p piece with
    | nil => rfl
    | cons lineBreak spaces => simp
  have hparts : piece.parts.flatten = piece.written := by
    cases piece with
    | declaration => rfl
    | opening name attributes => simp [Piece.parts, Piece.written]
    | closing name => simp [Piece.parts, Piece.written]
    | single name attributes => simp [Piece.parts, Piece.written]
    | text content => simp [Piece.parts, Piece.written]
  rw [List.flatten_append, hbreak, hparts]

/-- The buffers of pieces from a position on. -/
def buffersFrom (indent : Nat) : Cursor → List Piece → List (List UInt8)
  | _, [] => []
  | p, piece :: rest =>
    piece.buffers indent p ++ buffersFrom indent (p.after piece) rest

theorem flatten_buffersFrom (indent : Nat) (p : Cursor) (pieces : List Piece) :
    (buffersFrom indent p pieces).flatten
      = octets (chunks indent p pieces).flatten := by
  induction pieces generalizing p with
  | nil => rfl
  | cons piece rest ih =>
      rw [buffersFrom, chunks, List.flatten_append, ih, Piece.buffers,
        Sink.octets_flatten, flatten_parts, List.flatten_cons]
      exact List.flatMap_append.symm

namespace Device

variable {σ : Type} (dev : Device σ)

theorem putEach_append (buffers more : List (List UInt8)) :
    dev.putEach (buffers ++ more)
      = dev.putEach buffers >>= fun _ => dev.putEach more :=
  List.forM_append

/-- Writing pieces from a position on is writing their buffers. -/
theorem run_events (indent : Nat) (pieces : List Piece) (s : σ) (p : Cursor) :
    ∃ p', (pieces.forM (dev.event indent)).run (s, p)
      = ((((dev.putEach (buffersFrom indent p pieces)).run s).1, p'),
          ((dev.putEach (buffersFrom indent p pieces)).run s).2) := by
  induction pieces generalizing s p with
  | nil => exact ⟨p, rfl⟩
  | cons piece rest ih =>
      rw [buffersFrom, putEach_append]
      rcases hput : (dev.putEach (piece.buffers indent p)).run s
        with ⟨t, result⟩
      have hevent : (dev.event indent piece).run (s, p)
          = ((t, p.after piece), result) := by
        simp only [event, hput]
      cases result with
      | error e =>
          rw [Writing.run_bind_of_error hput]
          exact ⟨p.after piece, Writing.run_bind_of_error hevent⟩
      | ok _ =>
          obtain ⟨p', hrest⟩ := ih t (p.after piece)
          rw [Writing.run_bind_of_ok hput]
          exact ⟨p', (Writing.run_bind_of_ok hevent).trans hrest⟩

/-- A document that is written piece by piece is written in the buffers of its
    pieces. -/
theorem document_forM (indent : Nat) (pieces : List Piece) :
    dev.document (pieces.forM (dev.event indent))
      = dev.putEach (buffersFrom indent .start pieces) >>= fun _ =>
          dev.flush := by
  rw [document]
  refine congrArg (· >>= fun _ => dev.flush) ?_
  refine congrArg Writing.mk (funext fun s => ?_)
  obtain ⟨p', hrun⟩ := dev.run_events indent pieces s .start
  rw [hrun]
  rfl

/-- Bytes that are taken already make no difference. -/
theorem putAll_eq_drop (taken : Nat) (bytes : List UInt8) :
    dev.putAll taken bytes = dev.putAll 0 (bytes.drop taken) := by
  induction bytes generalizing taken with
  | nil => cases taken <;> rfl
  | cons byte rest ih =>
      cases taken with
      | zero => rfl
      | succ taken => exact ih taken

end Device

/-! ## Sinks as devices -/

namespace Sink

theorem limited_device : device.Limited room := by
  constructor
  · intro s bytes hne hroom
    have hlength : 0 < bytes.length := List.length_pos_of_ne_nil hne
    have hleft : s.room - bytes.length + min bytes.length s.room = s.room := by
      omega
    refine ⟨min bytes.length s.room, s.take bytes, ?_, ?_, ?_, hleft⟩
    · simp only [device, if_neg (Nat.ne_of_gt hroom)]
    · omega
    · omega
  · intro s bytes _ hroom
    refine ⟨s, .error fullMessage, ?_, .inr ⟨fullMessage, rfl⟩⟩
    simp only [device, if_pos hroom]
  · exact fun s => ⟨s, rfl, rfl⟩

theorem take_take (s : Sink) (bytes more : List UInt8) :
    (s.take bytes).take more = s.take (bytes ++ more) := by
  simp only [take, List.length_append, Nat.sub_sub, List.take_append,
    List.append_assoc]

/-- Behind a failure nothing more is taken. -/
theorem take_append_of_full {s : Sink} {bytes : List UInt8}
    (h : s.room ≤ bytes.length) (more : List UInt8) :
    s.take (bytes ++ more) = s.take bytes := by
  have hroom : s.room - (bytes ++ more).length = s.room - bytes.length := by
    rw [List.length_append]
    omega
  simp only [take, hroom, List.take_append_of_le_length h]

/-- How writing so many bytes to a sink ends. -/
def answer (s : Sink) (bytes : List UInt8) : Except String Unit :=
  if bytes.length ≤ s.room then .ok () else .error fullMessage

theorem take_nil (s : Sink) : s.take [] = s := by
  simp only [take, List.length_nil, Nat.sub_zero, List.take_nil,
    List.append_nil]

theorem run_putAll_of_full {s : Sink} (h : s.room = 0) {bytes : List UInt8}
    (hne : bytes ≠ []) :
    (device.putAll 0 bytes).run s = (s, .error fullMessage) := by
  cases bytes with
  | nil => exact absurd rfl hne
  | cons byte rest =>
      have hoffer : (device.offer (byte :: rest)).run s
          = (s, .error fullMessage) := by
        simp only [device, if_pos h]
      rw [Device.putAll, Writing.run_bind_of_error hoffer]

/-- Bytes are taken as far as there is room, at the first offer. -/
theorem run_putAll (s : Sink) (bytes : List UInt8) :
    (device.putAll 0 bytes).run s = (s.take bytes, s.answer bytes) := by
  cases bytes with
  | nil =>
      rw [take_nil]
      rfl
  | cons byte rest =>
      rcases Nat.eq_zero_or_pos s.room with hroom | hroom
      · have hfull : s.room ≤ ([] : List UInt8).length := Nat.le_of_eq hroom
        have htake : s.take (byte :: rest) = s :=
          (take_append_of_full hfull _).trans (take_nil s)
        rw [run_putAll_of_full hroom (List.cons_ne_nil _ _), htake, answer,
          if_neg (hroom ▸ Nat.not_succ_le_zero _)]
      · obtain ⟨k, hk⟩ : ∃ k, min (rest.length + 1) s.room = k + 1 :=
          ⟨min (rest.length + 1) s.room - 1, by omega⟩
        have hoffer : (device.offer (byte :: rest)).run s
            = (s.take (byte :: rest), .ok (k + 1)) := by
          simp only [device, if_neg (Nat.ne_of_gt hroom), List.length_cons, hk]
        rw [Device.putAll, Writing.run_bind_of_ok hoffer]
        dsimp only
        rw [Device.putAll_eq_drop, answer, List.length_cons]
        split
        next hfit =>
          have hdrop : rest.drop k = [] := List.drop_eq_nil_of_le (by omega)
          rw [hdrop]
          rfl
        next hfit =>
          -- what is left over is offered to a sink that is full
          have hfull : (s.take (byte :: rest)).room = 0 :=
            Nat.sub_eq_zero_of_le (Nat.le_of_not_le hfit)
          have hdrop : rest.drop k ≠ [] := by
            intro hnil
            have hlength := List.drop_eq_nil_iff.mp hnil
            omega
          exact run_putAll_of_full hfull hdrop

theorem answer_take {s : Sink} {bytes : List UInt8}
    (h : bytes.length ≤ s.room) (more : List UInt8) :
    (s.take bytes).answer more = s.answer (bytes ++ more) := by
  have hiff : more.length ≤ s.room - bytes.length ↔
      (bytes ++ more).length ≤ s.room := by
    rw [List.length_append]
    omega
  simp only [answer, take, hiff]

/-- Buffers are taken as if they were one. -/
theorem run_putEach (s : Sink) (buffers : List (List UInt8)) :
    (device.putEach buffers).run s
      = (s.take buffers.flatten, s.answer buffers.flatten) := by
  induction buffers generalizing s with
  | nil =>
      rw [List.flatten_nil, take_nil]
      rfl
  | cons buffer rest ih =>
      have hput := run_putAll s buffer
      rw [List.flatten_cons]
      by_cases hfit : buffer.length ≤ s.room
      · rw [answer, if_pos hfit] at hput
        rw [← take_take, ← answer_take hfit, ← ih]
        exact Writing.run_bind_of_ok hput
      · have hfull : s.room ≤ buffer.length := Nat.le_of_not_le hfit
        have hmore : ¬ (buffer ++ rest.flatten).length ≤ s.room := by
          rw [List.length_append]
          omega
        rw [answer, if_neg hfit] at hput
        rw [take_append_of_full hfull, answer, if_neg hmore]
        exact Writing.run_bind_of_error hput

/-- Chunks are taken as if they were one. -/
theorem writeAll_eq (s : Sink) (chunks : List (List UInt8)) :
    s.writeAll chunks = (s.take chunks.flatten,
      decide (chunks.flatten.length ≤ s.room)) := by
  induction chunks generalizing s with
  | nil =>
      rw [List.flatten_nil, take_nil]
      rfl
  | cons chunk rest ih =>
      rw [writeAll, List.flatten_cons, List.length_append]
      by_cases hfit : chunk.length ≤ s.room
      · rw [if_pos hfit, ih, take_take]
        refine congrArg (Prod.mk _) (decide_eq_decide.mpr ?_)
        show _ ≤ s.room - chunk.length ↔ _
        omega
      · have hfull : s.room ≤ chunk.length := Nat.le_of_not_le hfit
        rw [if_neg hfit, take_append_of_full hfull, decide_eq_false]
        omega

/-- A sink as a device is written to as a sink is. -/
theorem run_document (indent : Nat) (pieces : List Piece) (s : Sink) :
    (device.document (pieces.forM (device.event indent))).run s
      = ((s.write indent pieces).1,
          if (s.write indent pieces).2 then .ok () else .error fullMessage) := by
  have hput := run_putEach s (buffersFrom indent .start pieces)
  rw [Device.document_forM, write, writeAll_eq, octets_flatten,
    ← flatten_buffersFrom]
  simp only [decide_eq_true_eq]
  rw [← answer]
  generalize s.answer _ = result at hput
  cases result with
  | ok _ =>
      rw [Writing.run_bind_of_ok hput]
      rfl
  | error e => rw [Writing.run_bind_of_error hput]

end Sink
end RiskExchange.Markup
