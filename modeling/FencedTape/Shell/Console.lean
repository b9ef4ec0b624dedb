import FencedTape.Stream

/-! # The console of the shell

The console takes texts until it is full, if its room is bounded.  A text that does not fit is cut
off where the room ends.  Everything that the shell writes is ASCII, so that a character of it is
one byte. -/

set_option autoImplicit false

namespace FencedTape

structure Console where
  /-- Everything that has been taken. -/
  text : Array Char := #[]
  /-- How much more is taken, if that is bounded. -/
  room : Option Nat := none
  flushMishaps : Script := []
  deriving DecidableEq, Repr

namespace Console

def write (c : Console) (text : List Char) : Option StreamError × Console :=
  match c.room with
  | none => (none, { c with text := c.text ++ text })
  | some room =>
      ( if text.length ≤ room then none else some .closed,
        { c with text := c.text ++ text.take room, room := some (room - text.length) } )

def flush (c : Console) : Option StreamError × Console :=
  let (mishap, flushMishaps) := c.flushMishaps.next
  (mishap.bind Sink.flushError, { c with flushMishaps })

end Console

end FencedTape
