namespace ReactiveForm.Sha256

/-! The SHA-256 digest. A message is padded to blocks of sixteen words, and
every block stirs eight words of state in sixty-four rounds. -/

structure State where
  a : UInt32
  b : UInt32
  c : UInt32
  d : UInt32
  e : UInt32
  f : UInt32
  g : UInt32
  h : UInt32

/-- The first thirty-two bits of the fractional parts of the square roots of
the first eight primes. -/
def State.first : State :=
  ⟨0x6a09e667, 0xbb67ae85, 0x3c6ef372, 0xa54ff53a, 0x510e527f, 0x9b05688c, 0x1f83d9ab,
    0x5be0cd19⟩

/-- The first thirty-two bits of the fractional parts of the cube roots of the
first sixty-four primes, one for every round. -/
def roundConstants : List UInt32 := [
  0x428a2f98, 0x71374491, 0xb5c0fbcf, 0xe9b5dba5, 0x3956c25b, 0x59f111f1, 0x923f82a4,
  0xab1c5ed5, 0xd807aa98, 0x12835b01, 0x243185be, 0x550c7dc3, 0x72be5d74, 0x80deb1fe,
  0x9bdc06a7, 0xc19bf174, 0xe49b69c1, 0xefbe4786, 0x0fc19dc6, 0x240ca1cc, 0x2de92c6f,
  0x4a7484aa, 0x5cb0a9dc, 0x76f988da, 0x983e5152, 0xa831c66d, 0xb00327c8, 0xbf597fc7,
  0xc6e00bf3, 0xd5a79147, 0x06ca6351, 0x14292967, 0x27b70a85, 0x2e1b2138, 0x4d2c6dfc,
  0x53380d13, 0x650a7354, 0x766a0abb, 0x81c2c92e, 0x92722c85, 0xa2bfe8a1, 0xa81a664b,
  0xc24b8b70, 0xc76c51a3, 0xd192e819, 0xd6990624, 0xf40e3585, 0x106aa070, 0x19a4c116,
  0x1e376c08, 0x2748774c, 0x34b0bcb5, 0x391c0cb3, 0x4ed8aa4a, 0x5b9cca4f, 0x682e6ff3,
  0x748f82ee, 0x78a5636f, 0x84c87814, 0x8cc70208, 0x90befffa, 0xa4506ceb, 0xbef9a3f7,
  0xc67178f2]

def turn (word : UInt32) (places : UInt32) : UInt32 :=
  (word >>> places) ||| (word <<< (32 - places))

def State.round (state : State) (constant word : UInt32) : State :=
  let ⟨a, b, c, d, e, f, g, h⟩ := state
  let choice := (e &&& f) ^^^ (~~~e &&& g)
  let majority := (a &&& b) ^^^ (a &&& c) ^^^ (b &&& c)
  let mixedE := turn e 6 ^^^ turn e 11 ^^^ turn e 25
  let mixedA := turn a 2 ^^^ turn a 13 ^^^ turn a 22
  let stirred := h + mixedE + choice + constant + word
  ⟨stirred + mixedA + majority, a, b, c, d + stirred, e, f, g⟩

def nextWord (window : Array UInt32) : UInt32 :=
  let early := window.getD 1 0
  let late := window.getD 14 0
  window.getD 0 0 + (turn early 7 ^^^ turn early 18 ^^^ (early >>> 3)) +
    window.getD 9 0 + (turn late 17 ^^^ turn late 19 ^^^ (late >>> 10))

/-- The rounds of one block. The window holds the next sixteen words of the
schedule. -/
def rounds (window : Array UInt32) (state : State) : List UInt32 → State
  | [] => state
  | constant :: rest =>
      rounds ((window.push (nextWord window)).drop 1)
        (state.round constant (window.getD 0 0)) rest

def State.add (left right : State) : State :=
  ⟨left.a + right.a, left.b + right.b, left.c + right.c, left.d + right.d,
    left.e + right.e, left.f + right.f, left.g + right.g, left.h + right.h⟩

def State.stir (state : State) (block : List UInt32) : State :=
  state.add (rounds block.toArray state roundConstants)

def wordsOf : List UInt8 → List UInt32
  | a :: b :: c :: d :: rest =>
      ((a.toUInt32 <<< 24) ||| (b.toUInt32 <<< 16) ||| (c.toUInt32 <<< 8) |||
        d.toUInt32) :: wordsOf rest
  | _ => []

def bytesOf (word : UInt32) : List UInt8 :=
  [(word >>> 24).toUInt8, (word >>> 16).toUInt8, (word >>> 8).toUInt8, word.toUInt8]

def lengthBytes (bits : Nat) : List UInt8 :=
  [56, 48, 40, 32, 24, 16, 8, 0].map fun (shift : Nat) =>
    UInt8.ofNat (bits >>> shift)

/-- The message, a bit that is set, zeros, and the length in bits, together
whole blocks. -/
def pad (message : List UInt8) : List UInt8 :=
  let length := message.length
  message ++ 0x80 :: List.replicate ((119 - length % 64) % 64) 0 ++
    lengthBytes (8 * length)

def stirAll (state : State) : (blocks : Nat) → List UInt32 → State
  | 0, _ => state
  | blocks + 1, words => stirAll (state.stir (words.take 16)) blocks (words.drop 16)

def State.bytes (state : State) : List UInt8 :=
  bytesOf state.a ++ bytesOf state.b ++ bytesOf state.c ++ bytesOf state.d ++
    bytesOf state.e ++ bytesOf state.f ++ bytesOf state.g ++ bytesOf state.h

def digest (message : List UInt8) : List UInt8 :=
  let words := wordsOf (pad message)
  (stirAll .first (words.length / 16) words).bytes

theorem length_digest (message : List UInt8) : (digest message).length = 32 := rfl

example : (digest []).take 4 = [0xe3, 0xb0, 0xc4, 0x42] := by decide +kernel

end ReactiveForm.Sha256
