import Nachos.Machine.Basic
import Nachos.Lib.Transition

/-!
# `machine/console.cc`: the keyboard

The console has a buffer for one character, and no character is there when the buffer holds `EOF`.
The buffer is a `char`, which is signed, and the byte 255 is `EOF` in it: once this byte has been
read, `CheckCharAvail` takes the buffer for empty.

* `ConsoleSystem.Step`: polls, and one `GetChar` for each call of `readHandler`, in any order.
* `Delivered`: `GetChar` returns what has been read.
* `delivered_iff`: for which inputs this holds in every run.

The output half of the device has no state in common with the input half and is left out.
-/

namespace Nachos

open Transition

/-- The `EOF` of C. -/
def EOF : ℤ := -1

/-- `class Console`, the input half; `incoming` is a signed `char`. -/
structure ConsoleInput where
  incoming : Byte
  deriving DecidableEq

namespace ConsoleInput

/-- `incoming = EOF`. -/
def clear (con : ConsoleInput) : ConsoleInput := { con with incoming := .ofInt 8 EOF }

/-- `Console::Console`. -/
def new : ConsoleInput := ⟨.ofInt 8 EOF⟩

/-- `Console::CheckCharAvail`.  `ready` is the byte that `Read` stores if `PollFile` returns `true`.
The result has the byte that was read, if any, and then `readHandler` was called. -/
def checkCharAvail (con : ConsoleInput) (ready : Option Byte) : ConsoleInput × Option Byte :=
  if con.incoming.toInt ≠ EOF then (con, none)
  else
    match ready with
    | none => (con, none)
    | some c => ({ con with incoming := c }, some c)

/-- `Console::GetChar`. -/
def getChar (con : ConsoleInput) : Byte × ConsoleInput := (con.incoming, con.clear)

end ConsoleInput

/-- The console, what is typed and not yet read, what has been read, how many calls of `readHandler`
no `GetChar` has answered yet, and what the calls of `GetChar` have returned. -/
structure ConsoleSystem where
  console : ConsoleInput
  input : List Byte
  read : List Byte
  pending : ℕ
  got : List Byte
  deriving DecidableEq

/-- What happens next; the flag says whether the next byte has been typed by then. -/
inductive ConsoleEvent
  | poll (typed : Bool)
  | getChar

namespace ConsoleSystem

/-- A poll. -/
def poll (s : ConsoleSystem) (typed : Bool) : ConsoleSystem :=
  match s.console.checkCharAvail (if typed then s.input.head? else none) with
  | (con, none) => { s with console := con }
  | (con, some c) =>
    { s with
      console := con, input := s.input.tail, read := s.read ++ [c], pending := s.pending + 1 }

/-- A call of `GetChar`. -/
def getChar (s : ConsoleSystem) : ConsoleSystem :=
  { s with
    console := s.console.getChar.2
    pending := s.pending - 1
    got := s.got ++ [s.console.getChar.1] }

/-- `GetChar` is called once for each call of `readHandler`. -/
def Enabled (s : ConsoleSystem) : ConsoleEvent → Prop
  | .poll _ => True
  | .getChar => 0 < s.pending

instance (s : ConsoleSystem) (e : ConsoleEvent) : Decidable (s.Enabled e) :=
  match e with
  | .poll _ => inferInstanceAs (Decidable True)
  | .getChar => inferInstanceAs (Decidable (0 < s.pending))

/-- The state after an event. -/
def next (s : ConsoleSystem) : ConsoleEvent → ConsoleSystem
  | .poll typed => s.poll typed
  | .getChar => s.getChar

/-- The steps of a run. -/
def Step (s : ConsoleSystem) (e : ConsoleEvent) (t : ConsoleSystem) : Prop :=
  s.Enabled e ∧ t = s.next e

/-- A new console, in front of which these bytes are typed. -/
def Init (typed : List Byte) (s : ConsoleSystem) : Prop := s = ⟨.new, typed, [], 0, []⟩

/-- The states of the runs with this input. -/
abbrev Reachable (typed : List Byte) : ConsoleSystem → Prop := Reach (Init typed) Step

/-- `GetChar` has returned what has been read, in this order, up to the calls still to be made. -/
def Delivered (s : ConsoleSystem) : Prop :=
  s.got <+: s.read ∧ (s.pending = 0 → s.got = s.read)

/-- No byte 255 comes directly before another byte. -/
def EofLast (typed : List Byte) : Prop := typed.IsChain fun a b => a = 255 → b = 255

/-! ### One step -/

variable {s t : ConsoleSystem} {typed : List Byte}

theorem toInt_eq_EOF (c : Byte) : c.toInt = EOF ↔ c = 255 := by
  have h255 : EOF = (255 : Byte).toInt := by decide
  rw [h255, BitVec.toInt_inj]

variable {c : Byte} {rest : List Byte}

/-- A poll that finds the buffer empty and a byte typed reads this byte. -/
theorem poll_read (hin : s.console.incoming = 255) (hinput : s.input = c :: rest) :
    s.poll true = ⟨⟨c⟩, rest, s.read ++ [c], s.pending + 1, s.got⟩ := by
  unfold poll ConsoleInput.checkCharAvail
  rw [if_neg (not_not.2 ((toInt_eq_EOF _).2 hin)), hinput]
  rfl

/-- A poll that finds the buffer full, or no byte typed, does nothing. -/
theorem poll_idle {b : Bool}
    (h : s.console.incoming ≠ 255 ∨ (if b then s.input.head? else none) = none) :
    s.poll b = s := by
  have hcheck : s.console.checkCharAvail (if b then s.input.head? else none) =
      (s.console, none) := by
    unfold ConsoleInput.checkCharAvail
    rcases h with hin | hnone
    · rw [if_pos (mt (toInt_eq_EOF _).1 hin)]
    · rw [hnone]
      split_ifs <;> rfl
  unfold poll
  rw [hcheck]

/-- What a poll does. -/
theorem poll_cases (s : ConsoleSystem) (b : Bool) :
    s.poll b = s ∨
      ∃ c rest, s.console.incoming = 255 ∧ s.input = c :: rest ∧
        s.poll b = ⟨⟨c⟩, rest, s.read ++ [c], s.pending + 1, s.got⟩ := by
  by_cases hin : s.console.incoming = 255
  · cases b with
    | false => exact Or.inl (poll_idle (Or.inr rfl))
    | true =>
      cases hinput : s.input with
      | nil => exact Or.inl (poll_idle (Or.inr (by rw [hinput]; rfl)))
      | cons c rest => exact Or.inr ⟨c, rest, hin, rfl, poll_read hin hinput⟩
  · exact Or.inl (poll_idle (Or.inl hin))

/-! ### Inputs with every byte 255 at the end -/

/-- The buffer holds the one byte to be returned, or it and all that are to be returned are 255. -/
structure Kept (typed : List Byte) (s : ConsoleSystem) : Prop where
  all : s.read ++ s.input = typed
  buffer : s.console.incoming = 255 ∧ s.read = s.got ++ List.replicate s.pending 255 ∨
    s.pending = 1 ∧ s.console.incoming ≠ 255 ∧ s.read = s.got ++ [s.console.incoming]

/-- A byte that is read while others are to be returned is one more byte 255. -/
theorem Kept.read_next (h : Kept typed s) (hlast : EofLast typed) (hin : s.console.incoming = 255)
    (hinput : s.input = c :: rest) :
    s.read = s.got ++ List.replicate s.pending 255 ∧ (s.pending = 0 ∨ c = 255) := by
  rcases h.buffer with ⟨-, hread⟩ | ⟨-, hne, -⟩
  · refine ⟨hread, ?_⟩
    cases hp : s.pending with
    | zero => exact Or.inl rfl
    | succ p =>
      right
      have hall := h.all
      rw [hread, hinput, hp, List.replicate_succ', ← List.append_assoc, List.append_assoc] at hall
      exact (List.isChain_iff_forall_rel_of_append_cons_cons.1 hlast hall.symm) rfl
  · exact absurd hin hne

theorem kept_step (hlast : EofLast typed) {e : ConsoleEvent} (h : Kept typed s) (hs : Step s e t) :
    Kept typed t := by
  obtain ⟨hen, rfl⟩ := hs
  cases e with
  | poll b =>
    change Kept typed (s.poll b)
    rcases poll_cases s b with heq | ⟨c, rest, hin, hinput, heq⟩
    · rw [heq]
      exact h
    · obtain ⟨hread, hc⟩ := h.read_next hlast hin hinput
      have hall := h.all
      rw [heq]
      refine ⟨by simpa [hinput] using hall, ?_⟩
      by_cases hc255 : c = 255
      · left
        refine ⟨hc255, ?_⟩
        dsimp only
        rw [hread, hc255, List.append_assoc, ← List.replicate_succ']
      · have hp := hc.resolve_right hc255
        right
        refine ⟨by rw [hp], hc255, ?_⟩
        dsimp only
        rw [hread, hp, List.replicate_zero, List.append_nil]
  | getChar =>
    change Kept typed s.getChar
    refine ⟨h.all, Or.inl ⟨rfl, ?_⟩⟩
    unfold getChar ConsoleInput.getChar
    dsimp only
    rcases h.buffer with ⟨hin, hread⟩ | ⟨hp, -, hread⟩
    · obtain ⟨p, hp⟩ := Nat.exists_eq_succ_of_ne_zero (Nat.ne_of_gt hen)
      rw [hread, hin, hp, List.replicate_succ, List.append_assoc]
      rfl
    · rw [hread, hp]
      simp

theorem Kept.delivered (h : Kept typed s) : s.Delivered := by
  rcases h.buffer with ⟨-, hread⟩ | ⟨hp, -, hread⟩
  · refine ⟨⟨_, hread.symm⟩, fun hp => ?_⟩
    rw [hread, hp, List.replicate_zero, List.append_nil]
  · exact ⟨⟨_, hread.symm⟩, fun h0 => absurd hp (by omega)⟩

theorem delivered_of_eofLast (hlast : EofLast typed) (h : Reachable typed s) : s.Delivered := by
  refine Kept.delivered (h.invariant (fun _ hs => ?_) fun _ _ _ hk hs => kept_step hlast hk hs)
  rw [hs]
  exact ⟨rfl, Or.inl ⟨rfl, rfl⟩⟩

/-! ### Inputs with a byte 255 before another byte -/

theorem Reachable.poll_read (h : Reachable typed s) (hin : s.console.incoming = 255)
    (hinput : s.input = c :: rest) :
    Reachable typed ⟨⟨c⟩, rest, s.read ++ [c], s.pending + 1, s.got⟩ :=
  h.step (.poll true) ⟨trivial, (ConsoleSystem.poll_read hin hinput).symm⟩

theorem Reachable.getChar (h : Reachable typed s) (hp : 0 < s.pending) :
    Reachable typed s.getChar := h.step .getChar ⟨hp, rfl⟩

/-- When every poll is followed by `GetChar`, any input can be read and returned. -/
theorem reachable_alternating {pre : List Byte} (h : typed = pre ++ rest) :
    Reachable typed ⟨.new, rest, pre, 0, pre⟩ := by
  induction pre using List.reverseRecOn generalizing rest with
  | nil => exact .init (by rw [h]; rfl)
  | append_singleton pre c ih =>
    have hpre : Reachable typed ⟨.new, c :: rest, pre, 0, pre⟩ :=
      ih (by rw [h, List.append_assoc]; rfl)
    have hread := hpre.poll_read rfl rfl
    exact hread.getChar Nat.one_pos

/-- A second poll overwrites a byte 255. -/
theorem exists_not_delivered {pre post : List Byte} (h : typed = pre ++ 255 :: c :: post)
    (hc : c ≠ 255) : ∃ s, Reachable typed s ∧ ¬ s.Delivered := by
  have hfirst := (reachable_alternating h).poll_read rfl rfl
  have hsecond := hfirst.poll_read rfl rfl
  have hboth := (hsecond.getChar Nat.two_pos).getChar Nat.one_pos
  refine ⟨_, hboth, fun hd => hc ?_⟩
  have heq : pre ++ [c] ++ [255] = pre ++ [255] ++ [c] := hd.2 rfl
  have hends := (List.append_inj' heq rfl).2
  exact (List.cons.inj hends).1.symm

/-- **Which inputs the console delivers.**  In every run, `GetChar` returns the bytes that were
read, iff no byte 255 is typed directly before another byte. -/
theorem delivered_iff (typed : List Byte) :
    (∀ s, Reachable typed s → s.Delivered) ↔ EofLast typed := by
  constructor
  · intro h
    refine List.isChain_iff_forall_rel_of_append_cons_cons.2 fun a c pre post htyped ha => ?_
    by_contra hc
    rw [ha] at htyped
    obtain ⟨s, hs, hnot⟩ := exists_not_delivered htyped hc
    exact hnot (h s hs)
  · exact fun hlast s hs => delivered_of_eofLast hlast hs

/-- Two polls, then two calls of `GetChar`: the first returns the second byte, the other `EOF`. -/
theorem byte_255_overwritten :
    ∃ s, Reachable [255, 97] s ∧ s.pending = 0 ∧ s.read = [255, 97] ∧ s.got = [97, 255] := by
  have hinit : Reachable [255, 97] ⟨.new, [255, 97], [], 0, []⟩ := .init rfl
  exact hinit.exists_run (f := exec Enabled next) (exec_step Enabled next)
    [.poll true, .poll true, .getChar, .getChar] (by decide)

end ConsoleSystem

end Nachos
