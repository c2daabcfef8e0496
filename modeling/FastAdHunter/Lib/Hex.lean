import FastAdHunter.Lib.Words

/-!
# Hexadecimal text

Bytes written as pairs of lower-case digits, and read back in either case.
-/

namespace FastAdHunter.Lib

open List

/-- The digit of a number below sixteen. -/
def hexDigit (n : UInt8) : UInt8 :=
  if n < 10 then n + ch '0' else n - 10 + ch 'a'

def writeHex (bytes : Bytes) : Bytes :=
  bytes.flatMap fun byte : UInt8 => [hexDigit (byte >>> 4), hexDigit (byte &&& 0x0f)]

def nibble (byte : UInt8) : Option UInt8 :=
  if ch '0' ≤ byte ∧ byte ≤ ch '9' then some (byte - ch '0')
  else if ch 'a' ≤ byte ∧ byte ≤ ch 'f' then some (byte - ch 'a' + 10)
  else if ch 'A' ≤ byte ∧ byte ≤ ch 'F' then some (byte - ch 'A' + 10)
  else none

def decodePairs : Bytes → Option Bytes
  | high :: low :: rest => do
      let high ← nibble high
      let low ← nibble low
      let bytes ← decodePairs rest
      pure ((high <<< 4 ||| low) :: bytes)
  | [] => some []
  | [_] => none

/-- Read so many bytes. -/
def decodeHex (size : Nat) (text : Bytes) : Option Bytes :=
  if text.length = size * 2 then decodePairs text else none

lemma length_writeHex (bytes : Bytes) : (writeHex bytes).length = bytes.length * 2 := by
  induction bytes with
  | nil => rfl
  | cons byte bytes ih =>
    rw [writeHex, flatMap_cons, length_append, ← writeHex, ih, length_cons]
    simp only [length_cons, length_nil]
    omega

/-- The two digits of a byte give it back. -/
lemma nibbles_of_byte (byte : UInt8) :
    nibble (hexDigit (byte >>> 4)) = some (byte >>> 4) ∧
      nibble (hexDigit (byte &&& 0x0f)) = some (byte &&& 0x0f) ∧
      (byte >>> 4) <<< 4 ||| (byte &&& 0x0f) = byte := by
  have hall : ∀ n : Fin 256, nibble (hexDigit (UInt8.ofFin n >>> 4)) = some (UInt8.ofFin n >>> 4) ∧
      nibble (hexDigit (UInt8.ofFin n &&& 0x0f)) = some (UInt8.ofFin n &&& 0x0f) ∧
      (UInt8.ofFin n >>> 4) <<< 4 ||| (UInt8.ofFin n &&& 0x0f) = UInt8.ofFin n := by
    decide +kernel
  exact hall byte.toFin

lemma decodePairs_writeHex (bytes : Bytes) : decodePairs (writeHex bytes) = some bytes := by
  induction bytes with
  | nil => rfl
  | cons byte bytes ih =>
    obtain ⟨hhigh, hlow, hbyte⟩ := nibbles_of_byte byte
    change decodePairs (hexDigit (byte >>> 4) :: hexDigit (byte &&& 0x0f) :: writeHex bytes) = _
    rw [decodePairs, hhigh, hlow, ih]
    exact congrArg (fun b => some (b :: bytes)) hbyte

/-- **Reading gives back what was written.** -/
theorem decodeHex_writeHex (bytes : Bytes) :
    decodeHex bytes.length (writeHex bytes) = some bytes := by
  rw [decodeHex, if_pos (length_writeHex bytes), decodePairs_writeHex]

lemma isGraphic_writeHex (hb : b ∈ writeHex bytes) :
    isGraphic b = true := by
  have hall : ∀ n : Fin 256, isGraphic (hexDigit (UInt8.ofFin n >>> 4)) = true ∧
      isGraphic (hexDigit (UInt8.ofFin n &&& 0x0f)) = true := by decide +kernel
  obtain ⟨byte, -, hb⟩ := mem_flatMap.mp hb
  simp only [mem_cons, not_mem_nil, or_false] at hb
  rcases hb with rfl | rfl
  · exact (hall byte.toFin).1
  · exact (hall byte.toFin).2

lemma trim_writeHex (bytes : Bytes) : trim (writeHex bytes) = writeHex bytes :=
  trim_eq_self (fun _ hb => isGraphic_writeHex (mem_of_mem_head? hb))
    fun _ hb => isGraphic_writeHex (mem_of_mem_getLast? hb)

end FastAdHunter.Lib
