/-!
# Numerals

A power such as `2 ^ 32` is that of the core library, whatever else is imported, so that it is one
term in every module.  The register files are not empty, so that a numeral names a register.
-/

attribute [default_instance 20000] instPowNat

namespace Dynarec

instance neZero_controls : @NeZero Nat Zero.ofOfNat0 16 := ⟨by decide⟩

instance neZero_registers : @NeZero Nat Zero.ofOfNat0 32 := ⟨by decide⟩

instance neZero_elements : @NeZero Nat Zero.ofOfNat0 128 := ⟨by decide⟩

end Dynarec
