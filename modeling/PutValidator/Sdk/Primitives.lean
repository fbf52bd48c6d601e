import Mathlib

/-! The fixed-size byte strings of the SDK: `Pubkey` and `Hash` (32 bytes) and `Signature`
(64 bytes). The runtime compares them for equality and reads their bytes, and orders public
keys by their bytes where it keeps them in an ordered map; nothing else about them is
modelled. -/
namespace PutValidator

structure Pubkey where
  bytes : Vector UInt8 32
deriving DecidableEq, Repr

structure Hash where
  bytes : Vector UInt8 32
deriving DecidableEq, Repr

structure Signature where
  bytes : Vector UInt8 64
deriving DecidableEq, Repr

/-- `Hash::default()`, all zero bytes. -/
def Hash.default : Hash := ⟨Vector.replicate 32 0⟩

instance : Inhabited Hash := ⟨Hash.default⟩

/-- `Pubkey::default()`, all zero bytes. -/
def Pubkey.default : Pubkey := ⟨Vector.replicate 32 0⟩

instance : Inhabited Pubkey := ⟨Pubkey.default⟩

/-- The derived `Ord` of `Pubkey`: its bytes in lexicographic order. -/
instance : LT Pubkey := ⟨fun a b => a.bytes.toList < b.bytes.toList⟩

instance : DecidableLT Pubkey := fun a b =>
  inferInstanceAs (Decidable (a.bytes.toList < b.bytes.toList))

instance : IsStrictTotalOrder Pubkey (· < ·) where
  irrefl a := List.lt_irrefl a.bytes.toList
  trans _ _ _ := List.lt_trans
  trichotomous a b hab hba := by
    have hBytes : a.bytes.toList = b.bytes.toList :=
      Std.Trichotomous.trichotomous (r := fun x y : List UInt8 => x < y) _ _ hab hba
    cases a
    cases b
    simp_all [Vector.toList_inj]

end PutValidator
