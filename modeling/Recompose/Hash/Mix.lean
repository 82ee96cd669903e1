/-!
The mixing of sixty-four-bit words into a hash. Both steps, a word mixed into a state and the final
spreading of a hash, lose nothing: they are compositions of invertible ones.
-/

namespace Recompose

abbrev Hash : Type := UInt64

namespace Hash

/-- The hash of no words. -/
def basis : Hash := 0xCBF29CE484222325

def prime : UInt64 := 0x100000001B3

/-- The odd factors of the spreading steps. -/
def spreadFactor : UInt64 := 0xFF51AFD7ED558CCD

def finalFactor : UInt64 := 0xC4CEB9FE1A85EC53

/-- Folds the upper half of a word into its lower one. -/
def fold33 (w : UInt64) : UInt64 :=
  w ^^^ (w >>> 33)

/-- Takes one more word into a hash. -/
def mix (h : Hash) (w : UInt64) : Hash :=
  fold33 (fold33 ((h ^^^ w) * prime) * spreadFactor)

/-- Takes more words into a hash, in order. -/
def mixAll (h : Hash) (words : List UInt64) : Hash :=
  words.foldl mix h

def ofWords (words : List UInt64) : Hash :=
  mixAll basis words

/-- Spreads every bit of a word over the whole word. -/
def avalanche (w : UInt64) : UInt64 :=
  fold33 (fold33 (fold33 w * spreadFactor) * finalFactor)

end Hash

end Recompose
