import TokenLedger.Proofs.Batch
import TokenLedger.Proofs.Message

/-! What a signature binds. The digest is taken from a message that determines the terms of a transfer, so without
a collision it authorises no other terms. Whether the parties must have wallets is not among the terms: two
transfers under one signature come to the same, unless one of them alone asks for a wallet that is not there. -/

namespace TokenLedger

namespace Hex

theorem toLower_of_mem_encode {s : Bytes} :
    ∀ b ∈ encode s, (Char.ofNat b.toNat).toLower = Char.ofNat b.toNat := by
  have hdigit : ∀ n < 16, (Char.ofNat (digit n).toNat).toLower = Char.ofNat (digit n).toNat := by decide
  induction s with
  | nil => simp [encode]
  | cons b s ih =>
    have hb := b.toNat_lt
    intro c hc
    simp only [encode, List.mem_cons] at hc
    rcases hc with rfl | rfl | hc
    · exact hdigit _ (by omega)
    · exact hdigit _ (by omega)
    · exact ih c hc

theorem map_toLower_text (s : Bytes) : (text s).toList.map Char.toLower = (text s).toList := by
  rw [text, String.toList_ofList, List.map_map]
  exact List.map_congr_left toLower_of_mem_encode

theorem text_injective : Function.Injective text := by
  have hchar : Function.Injective fun b : UInt8 => Char.ofNat b.toNat := by
    intro a b h
    have hn : (Char.ofNat a.toNat).toNat = (Char.ofNat b.toNat).toNat := congrArg Char.toNat h
    rw [Text.toNat_ofNat_of_lt a.toNat_lt, Text.toNat_ofNat_of_lt b.toNat_lt] at hn
    exact UInt8.toNat_inj.mp hn
  intro s t h
  have he := List.map_injective_iff.mpr hchar (String.ofList_injective h)
  simpa using congrArg decode he

end Hex

namespace Transfer

variable {t u : Transfer}

theorem SameTerms.authorise (h : t.SameTerms u) (verify : Verifier) (digest signature : String) :
    authorise verify u digest signature = authorise verify t digest signature := by
  have hdigest : t.digest = u.digest := congrArg sha256 h.message
  rw [TokenLedger.authorise, TokenLedger.authorise, hdigest, h.id, h.sender]

theorem sameTerms_of_authorise {verify : Verifier} {digest signature : String}
    (ht : authorise verify t digest signature = .ok ()) (hu : authorise verify u digest signature = .ok ())
    (hmt : t.Measured) (hmu : u.Measured) (hhash : t.digest = u.digest → t.message = u.message) :
    t.SameTerms u := by
  have hsame {r : Transfer} (hr : authorise verify r digest signature = .ok ()) :
      (Text.withoutMark (Text.trim digest.toList)).map Char.toLower = (Hex.text r.digest).toList := by
    rw [← Hex.map_toLower_text]
    simp only [authorise] at hr
    split at hr
    · rename_i hletters
      simpa [sameLetters] using hletters
    · cases hr
  have htext : Hex.text t.digest = Hex.text u.digest := String.toList_inj.mp ((hsame ht).symm.trans (hsame hu))
  exact sameTerms_of_message hmt hmu (hhash (Hex.text_injective htext))

end Transfer

/-- The same answer with another transfer repeated in it. -/
def Envelope.repeating (u : Transfer) (e : Envelope) : Envelope :=
  { e with transfers := (Envelope.empty.withTransfer { u with kind := Transfer.recordedKind }).transfers }

namespace Transfer

/-- Two transfers come to the same in a new transaction: both fail alike, or both write the same, and their
answers repeat the transfer and are otherwise the same. -/
structure SameEffect (s : Store) (t u : Transfer) : Prop where
  answer : ((transfer u).perform s .empty).1 = ((transfer t).perform s .empty).1.map (Envelope.repeating u)
  writes : ((transfer u).perform s .empty).2.writes = ((transfer t).perform s .empty).2.writes

/-- A transfer comes to a refusal because an address has no wallet, and another transfer does not ask for
it. -/
inductive RefusedAlone {α : Type} (l : Table Bytes) (t u : Transfer) (result : Except Failure α) : Prop
  | sender (asks : t.anySender = false) (waives : u.anySender = true)
      (unknown : Live.registered l t.sender = false) (refused : result = .error (.addressUnknown t.sender))
  | receiver (asks : t.anyReceiver = false) (waives : u.anyReceiver = true)
      (unknown : Live.registered l t.receiver = false) (refused : result = .error (.addressUnknown t.receiver))

theorem RefusedAlone.imp {α β : Type} {l : Table Bytes} {t u : Transfer} {x : Except Failure α}
    {y : Except Failure β} (hxy : ∀ f, x = .error f → y = .error f) (h : RefusedAlone l t u x) :
    RefusedAlone l t u y := by
  cases h with
  | sender asks waives unknown refused => exact .sender asks waives unknown (hxy _ refused)
  | receiver asks waives unknown refused => exact .receiver asks waives unknown (hxy _ refused)

end Transfer

namespace Live

theorem entry_cases (l : Table Bytes) (a b : Bool) (address : String) : entry l a address = entry l b address ∨
    (a = false ∧ b = true ∧ registered l address = false ∧ entry l a address = .error (.addressUnknown address)) ∨
    (b = false ∧ a = true ∧ registered l address = false ∧ entry l b address = .error (.addressUnknown address)) := by
  cases hr : registered l address <;> cases a <;> cases b <;> simp [entry, hr]

variable {l : Table Bytes} (h : Coherent l) {t u : Transfer}

include h

/-- Two transfers on the same terms move the same, or one of them alone asks for a missing wallet. -/
theorem Coherent.move_cases (hterms : t.SameTerms u) : move l u = move l t ∨
    t.RefusedAlone l u (move l t) ∨ u.RefusedAlone l t (move l u) := by
  have hu : move l u = ((Query.transferableToken t.token t.date t.amount).eval l).bind fun _ =>
      (entry l u.anySender t.sender).bind fun _ =>
        (entry l u.anyReceiver t.receiver).bind fun _ => shifted l t := by
    rw [h.move_eq, shifted, shifted, hterms.token, hterms.sender, hterms.receiver, hterms.amount, hterms.date]
  rw [hu, h.move_eq t]
  cases (Query.transferableToken t.token t.date t.amount).eval l with
  | error f => exact .inl rfl
  | ok v =>
    rcases entry_cases l t.anySender u.anySender t.sender with he | ⟨hasks, hwaives, hunknown, hrefused⟩ |
      ⟨hasks, hwaives, hunknown, hrefused⟩
    · rw [he]
      cases entry l u.anySender t.sender with
      | error f => exact .inl rfl
      | ok v =>
        rcases entry_cases l t.anyReceiver u.anyReceiver t.receiver with he | ⟨hasks, hwaives, hunknown, hrefused⟩ |
          ⟨hasks, hwaives, hunknown, hrefused⟩
        · exact .inl (by rw [he])
        · exact .inr (.inl (.receiver hasks hwaives hunknown (by rw [hrefused]; rfl)))
        · rw [hterms.receiver] at hunknown hrefused ⊢
          exact .inr (.inr (.receiver hasks hwaives hunknown (by rw [hrefused]; rfl)))
    · exact .inr (.inl (.sender hasks hwaives hunknown (by rw [hrefused]; rfl)))
    · rw [hterms.sender] at hunknown hrefused ⊢
      exact .inr (.inr (.sender hasks hwaives hunknown (by rw [hrefused]; rfl)))

theorem Coherent.transfer_cases (hterms : t.SameTerms u) :
    (transfer u).plan.eval l = ((transfer t).plan.eval l).map (Effect.map (Envelope.repeating u)) ∨
      t.RefusedAlone l u ((transfer t).plan.eval l) ∨ u.RefusedAlone l t ((transfer u).plan.eval l) := by
  have heffective : u.isEffective = t.isEffective := by
    rw [Transfer.isEffective, Transfer.isEffective, hterms.sender, hterms.receiver, hterms.amount]
  cases ht : t.isEffective with
  | true =>
    rw [h.eval_transfer_effective ht, h.eval_transfer_effective (heffective.trans ht)]
    rcases h.move_cases hterms with he | hrefused | hrefused
    · rw [he]
      left
      cases move l t <;> rfl
    · exact .inr (.inl (hrefused.imp fun f hf => by rw [hf]; rfl))
    · exact .inr (.inr (hrefused.imp fun f hf => by rw [hf]; rfl))
  | false =>
    left
    rw [eval_transfer, eval_transfer, ← hterms.sender, ← hterms.receiver, ← hterms.amount]
    split_ifs with hs hz
    · rfl
    · rfl
    · simp [Transfer.isEffective, hs, hz] at ht

end Live

theorem Transfer.SameTerms.transfer_eq {t u : Transfer} (h : t.SameTerms u) (hs : t.anySender = u.anySender)
    (hr : t.anyReceiver = u.anyReceiver) : transfer u = transfer t := by
  have hu : { u with kind := t.kind } = t := by
    obtain ⟨hid, htoken, hsender, hreceiver, hamount, hdate⟩ := h
    cases t
    cases u
    simp_all
  change transfer { u with kind := t.kind } = transfer t
  rw [hu]

/-- Two transfers that one signature authorises are on the same terms. They are one operation if they ask for
the same wallets. In every state they come to the same even if they do not, unless one of them is refused
for want of a wallet for which the other does not ask. -/
theorem authorised_effect {c : Contract} {x : Session} (h : c.Reaches x) {t u : Transfer}
    {digest signature : String} (ht : authorise c.verify t digest signature = .ok ())
    (hu : authorise c.verify u digest signature = .ok ()) (hmt : t.Measured) (hmu : u.Measured)
    (hhash : sha256 t.message = sha256 u.message → t.message = u.message) :
    t.SameTerms u ∧ (t.anySender = u.anySender → t.anyReceiver = u.anyReceiver → transfer u = transfer t) ∧
      (t.SameEffect x.store u ∨ t.RefusedAlone x.store.live u ((transfer t).perform x.store .empty).1 ∨
        u.RefusedAlone x.store.live t ((transfer u).perform x.store .empty).1) := by
  have hterms := Transfer.sameTerms_of_authorise ht hu hmt hmu hhash
  have hlive : Live.Coherent (Transaction.view x.store .empty) := h.coherent.store
  have hrefused {r : Transfer} {f : Failure} (hf : (transfer r).plan.eval (Transaction.view x.store .empty) = .error f) :
      ((transfer r).perform x.store .empty).1 = .error f := by
    rw [(writesLast_transfer r).perform_eq, Query.perform_eq, hf]
  refine ⟨hterms, hterms.transfer_eq, ?_⟩
  rcases hlive.transfer_cases hterms with he | hr | hr
  · obtain ⟨hanswer, hwrites⟩ := Query.perform_map he rfl
    rw [← (writesLast_transfer t).perform_eq, ← (writesLast_transfer u).perform_eq] at hanswer hwrites
    exact .inl ⟨hanswer, hwrites⟩
  · exact .inr (.inl (hr.imp fun f => hrefused))
  · exact .inr (.inr (hr.imp fun f => hrefused))

def payer : String := "79b5562e8fe654f94078b112e8a98ba7901f853ae695bed7e0e3910bad049664"

def funding : List Step :=
  [.run none (.invoke (some .admin) "registerToken"
    ["\x7b\"TokenType\":\"CRYPTO\",\"Symbol\":\"GLD\",\"Supply\":5\x7d", payer]),
   .run none (.invoke none "registerAddress" [payer])]

@[irreducible] def funded : Session := (Session.run .signing .empty funding).2

/-- A transfer to bob, who has no wallet and may need one or not. -/
def toBob (any : Bool) : Transfer := ⟨"", "GLD", payer, "bob", any, false, ⟨100000000, by decide⟩, "", 0⟩

theorem measured_toBob (any : Bool) : (toBob any).Measured := by
  have hs : ∀ s ∈ [(toBob any).id, (toBob any).token, (toBob any).sender, (toBob any).receiver],
      (Text.utf8 s).length < 256 := by
    change ∀ s ∈ ["", "GLD", payer, "bob"], (Text.utf8 s).length < 256
    decide
  exact fun s hmem => (hs s hmem).trans (by decide)

def toBobDigest : String := "2b850005def16dfa5c76a74ddd4118006fb27b5e1fd9a116140cd12adaa40879"

def toBobSignature : String :=
  "b7bbfb89290646ef4346475dee36fbe7f6980370dd1d057c81a5f001eded5c9b" ++
    "d7124e56cc13b234a55775c897c4070074b4e3548badc484e7522fc544c60402"

theorem authorise_toBob (any : Bool) :
    authorise ed25519Verifier (toBob any) toBobDigest toBobSignature = .ok () := by
  have hok (x : Except Failure Unit) (hx : x.isOk) : x = .ok () := by
    cases x with
    | ok u => rfl
    | error f => cases hx
  have hterms : (toBob true).SameTerms (toBob any) := ⟨rfl, rfl, rfl, rfl, rfl, rfl⟩
  exact (hterms.authorise _ _ _).trans (hok _ (by decide +kernel))

theorem authorised_effect_toBob :
    ((transfer (toBob true)).perform funded.store .empty).1.isOk ∧
      ((transfer (toBob false)).perform funded.store .empty).1 = .error (.addressUnknown "bob") ∧
      (toBob true).SameTerms (toBob false) ∧
      ((toBob true).SameEffect funded.store (toBob false) ∨
        (toBob true).RefusedAlone funded.store.live (toBob false)
          ((transfer (toBob true)).perform funded.store .empty).1 ∨
        (toBob false).RefusedAlone funded.store.live (toBob true)
          ((transfer (toBob false)).perform funded.store .empty).1) := by
  have hreached : Contract.signing.Reaches funded := by
    unfold funded
    exact ⟨funding, .of_interleaves .signing (by decide), rfl⟩
  obtain ⟨hterms, -, heffect⟩ := authorised_effect hreached (authorise_toBob true) (authorise_toBob false)
    (measured_toBob true) (measured_toBob false) fun _ => rfl
  have hanswers : ((transfer (toBob true)).perform funded.store .empty).1.isOk ∧
      ((transfer (toBob false)).perform funded.store .empty).1 = .error (.addressUnknown "bob") := by
    decide +kernel
  exact ⟨hanswers.1, hanswers.2, hterms, heffect⟩

end TokenLedger
