import Mathlib.Data.List.Basic

/-! # The byte pair encoder (`user/libc/tokenizer.c`)

The tokens are a list in place of the array with its length, so that moving the rest to the left drops a token. -/

namespace Limnx

structure BpeMerge where
  left : Nat
  right : Nat
  result : Nat

/-- `bpe_tokenizer_t`. `vocab i` is the string of token `i`, with its length. -/
structure BpeTokenizer where
  vocabSize : Nat
  vocab : Nat → List UInt8
  merges : List BpeMerge

namespace BpeMerge

/-- The rounds from one token on. After a merge the result is compared again. -/
def pass (m : BpeMerge) (token : Nat) : List Nat → List Nat
  | [] => [token]
  | next :: rest => if token = m.left ∧ next = m.right then m.pass m.result rest else token :: m.pass next rest

def apply (m : BpeMerge) : List Nat → List Nat
  | [] => []
  | token :: rest => m.pass token rest

end BpeMerge

namespace BpeTokenizer

def bpeEncode (bpe : BpeTokenizer) (text : List UInt8) (maxTokens : Nat) : List Nat :=
  bpe.merges.foldl (fun tokens m => m.apply tokens) ((text.take maxTokens).map UInt8.toNat)

/-- The sum that is compared wraps. (What a later string overwrites if `pos` has wrapped is left out.) -/
def decodeFrom (bpe : BpeTokenizer) (maxOut : UInt32) (out : List UInt8) : List Nat → List UInt8
  | [] => out
  | tid :: rest =>
    if bpe.vocabSize ≤ tid then bpe.decodeFrom maxOut out rest
    else if maxOut ≤ UInt32.ofNat (out.length + (bpe.vocab tid).length) then out
    else bpe.decodeFrom maxOut (out ++ bpe.vocab tid) rest

/-- What is written, with its terminator, and the number returned. -/
def bpeDecode (bpe : BpeTokenizer) (tokens : List Nat) (maxOut : UInt32) : List UInt8 × UInt32 :=
  let out := bpe.decodeFrom maxOut [] tokens
  (out ++ [0], UInt32.ofNat out.length)

end BpeTokenizer

end Limnx
