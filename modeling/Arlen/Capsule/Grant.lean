import Arlen.Capsule.Scope
import Arlen.Lib.Json
import Arlen.Lib.Sort

/-!
# Signed grants

A grant is signed over its canonical bytes, the compact JSON of its fields with the roots
in order. These bytes say what the grant says, up to the order of its roots: a signature
over them is one over every field.
-/

namespace Arlen.Capsule

open Arlen.Lib

structure CapsuleGrant where
  scope : CapsuleScope
  sliceHash : String
  audienceHex : String
  expiresAtMicros : Int
  maxOps : Nat
  originatingUser : String
  revocationHandle : String
deriving DecidableEq

structure SignedGrant where
  grant : CapsuleGrant
  signature : Bytes
deriving DecidableEq

/-- The fields of `Canonical` behind the roots. -/
def CapsuleGrant.fields (g : CapsuleGrant) : Int × String × String × Int × Int × String × String :=
  (g.scope.expandHops, g.sliceHash, g.audienceHex, g.expiresAtMicros, g.maxOps,
    g.originatingUser, g.revocationHandle)

def printGrantFields : Int × String × String × Int × Int × String × String → List Char :=
  Json.printPair "" "\"slice_hash\":" "" (Json.printIntThen ',')
    (Json.printPair "" ",\"audience_hex\":" "" Json.printString
      (Json.printPair "" ",\"expires_at_micros\":" "" Json.printString
        (Json.printPair "" "\"max_ops\":" "" (Json.printIntThen ',')
          (Json.printPair "" "\"originating_user\":" "" (Json.printIntThen ',')
            (Json.printPair "" ",\"revocation_handle\":" "" Json.printString
              Json.printString)))))

def printGrant : List String × (Int × String × String × Int × Int × String × String) → List Char :=
  Json.printPair "\x7b\"roots\":" ",\"expand_hops\":" "\x7d" (Json.printList '[' ']' Json.printString)
    printGrantFields

/-- `CapsuleGrant::canonical_bytes`. -/
def CapsuleGrant.canonicalBytes (g : CapsuleGrant) : Bytes :=
  utf8 (String.ofList (printGrant (sortBy id g.scope.roots, g.fields)))

theorem selfDelimiting_printGrantFields : Json.SelfDelimiting printGrantFields := by
  have hint : Json.SelfDelimiting (Json.printIntThen ',') :=
    Json.selfDelimiting_printIntThen (by decide) (by decide)
  have hstring := Json.selfDelimiting_printString
  exact Json.selfDelimiting_printPair _ _ _ hint
    (Json.selfDelimiting_printPair _ _ _ hstring
      (Json.selfDelimiting_printPair _ _ _ hstring
        (Json.selfDelimiting_printPair _ _ _ hint
          (Json.selfDelimiting_printPair _ _ _ hint
            (Json.selfDelimiting_printPair _ _ _ hstring hstring)))))

theorem selfDelimiting_printGrant : Json.SelfDelimiting printGrant := by
  refine Json.selfDelimiting_printPair _ _ _ ?_ selfDelimiting_printGrantFields
  exact Json.selfDelimiting_printList (by decide) (fun _ => ⟨'"', _, rfl, by decide⟩)
    Json.selfDelimiting_printString

variable {g g' : CapsuleGrant}

/-- **What a signature is over**: every field, and the roots up to their order. -/
theorem grantBytes_eq_iff : g.canonicalBytes = g'.canonicalBytes ↔
    g.scope.roots.Perm g'.scope.roots ∧ g.fields = g'.fields := by
  have hsort : sortBy id g.scope.roots = sortBy id g'.scope.roots ↔
      g.scope.roots.Perm g'.scope.roots := sortBy_eq_iff fun _ _ _ _ h => h
  rw [← hsort]
  unfold CapsuleGrant.canonicalBytes
  constructor
  · intro h
    have hchars := congrArg String.toList (utf8_inj h)
    rw [String.toList_ofList, String.toList_ofList] at hchars
    exact Prod.mk.inj (selfDelimiting_printGrant.injective hchars)
  · rintro ⟨hroots, hfields⟩
    rw [hroots, hfields]

example : (CapsuleGrant.canonicalBytes ⟨⟨["p1"], 1⟩, "abc", "00", 1000000, 10, "tim", "rev-1"⟩) =
    utf8 ("\x7b\"roots\":[\"p1\"],\"expand_hops\":1,\"slice_hash\":\"abc\",\"audience_hex\":\"00\"," ++
      "\"expires_at_micros\":1000000,\"max_ops\":10,\"originating_user\":\"tim\"," ++
      "\"revocation_handle\":\"rev-1\"\x7d") := by
  decide +kernel

end Arlen.Capsule
