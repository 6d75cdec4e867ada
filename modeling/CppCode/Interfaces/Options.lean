import CppCode.Interfaces.Module

/-!
# TLS options and the history of calls

`Bind` hands `m_bind_opts` to `mg_bind_opt`, and a call without a certificate leaves the
certificate of an earlier call in it. `bind_options_iff` says for which calls, after which
histories, the options are those that the arguments ask for.
-/

namespace CppCode.Interfaces

open Library Mongoose

/-- A pointer of the options reads as the argument that was given, or is `NULL` without one. -/
def Reads (pointer : Option Bytes) (name : Option CText) : Prop :=
  pointer.map readCString = (given name).map fun text => some text.bytes

/-- The options that `Bind` hands to `mg_bind_opt`, if it calls it, are those that its certificate
and key arguments ask for. -/
def AsAsked (s : Module) (args : BindArgs) (env : BindEnv) : Prop :=
  ∀ opts, (bind s args env).2.handed = some opts →
    Reads opts.sslCert args.certName ∧ Reads opts.sslKey args.keyName

/-- `Bind` does not call `mg_bind_opt`: no port is given, or an allocation for one of the
arguments throws. -/
def NotHanded (args : BindArgs) : Prop :=
  (∀ port, given args.port = some port → newCopy (cString port.bytes) = none) ∨
    copyGiven args.certName = none ∨ copyGiven args.keyName = none

/-- The names that are given are shorter than `INT_MAX`. -/
def Whole (args : BindArgs) : Prop :=
  ∀ text, given args.certName = some text ∨ given args.keyName = some text →
    text.bytes.length < intMax

/-- The options that are left from earlier calls do not show: a certificate is given, or there is
none left and the key is given or none is left. -/
def Fresh (opts : MgBindOpts) (args : BindArgs) : Prop :=
  (given args.certName).isSome = true ∨
    (opts.sslCert = none ∧ ((given args.keyName).isSome = true ∨ opts.sslKey = none))

/-- The end of `Bind` hands over the stored options, whatever comes of it. -/
theorem bindListener_handed (s : Module) (env : BindEnv) :
    (bindListener s env).2.handed = some s.bindOpts := by
  unfold bindListener
  cases mgBindOpt s.mgr s.listeners s.bindOpts env <;> rfl

/-- The options that are handed over when all copies are made. -/
theorem bindCopies_handed (s : Module) (port : Option Bytes) (cert key : Option (Option Bytes))
    (env : BindEnv) :
    (bindCopies s port cert key env).2.handed =
      if port.isSome ∧ cert.isSome ∧ key.isSome then
        some (storeKey (storeCert s.bindOpts cert.join) key.join)
      else none := by
  cases port <;> cases cert <;> cases key <;>
    simp [bindCopies, bindListener_handed]

/-- What `Bind` hands over when a port is given. -/
theorem bind_handed {s : Module} {args : BindArgs} {port : CText} (env : BindEnv)
    (portGiven : given args.port = some port) :
    (bind s args env).2.handed =
      if (newCopy (cString port.bytes)).isSome ∧ (copyGiven args.certName).isSome ∧
          (copyGiven args.keyName).isSome then
        some (storeKey (storeCert s.bindOpts (copyGiven args.certName).join)
          (copyGiven args.keyName).join)
      else none := by
  simp only [bind, portGiven, bindCopies_handed]

/-- Without a port, or when an allocation throws, `Bind` hands over nothing. -/
theorem bind_unhanded {s : Module} {args : BindArgs} (env : BindEnv) (unhanded : NotHanded args) :
    (bind s args env).2.handed = none := by
  cases portGiven : given args.port with
  | none => rw [bind, portGiven]
  | some port =>
    rw [bind_handed env portGiven]
    apply if_neg
    rintro ⟨portCopied, certCopied, keyCopied⟩
    rcases unhanded with never | never | never
    · rw [never port portGiven] at portCopied
      contradiction
    · rw [never] at certCopied
      contradiction
    · rw [never] at keyCopied
      contradiction

/-- When no allocation throws, the copies exist. -/
theorem copies_of_handed {args : BindArgs} (handed : ¬NotHanded args) :
    ∃ port buffer cert key, given args.port = some port ∧
      newCopy (cString port.bytes) = some buffer ∧ copyGiven args.certName = some cert ∧
      copyGiven args.keyName = some key := by
  simp only [NotHanded, not_or, not_forall] at handed
  obtain ⟨⟨port, portGiven, portCopied⟩, certCopied, keyCopied⟩ := handed
  obtain ⟨buffer, copied⟩ := Option.ne_none_iff_exists'.mp portCopied
  obtain ⟨cert, certCopied⟩ := Option.ne_none_iff_exists'.mp certCopied
  obtain ⟨key, keyCopied⟩ := Option.ne_none_iff_exists'.mp keyCopied
  exact ⟨port, buffer, cert, key, portGiven, copied, certCopied, keyCopied⟩

/-- The copy of an argument is read as the argument exactly when it is shorter than `INT_MAX`. -/
theorem reads_copy_iff {name : Option CText} {copy : Option Bytes}
    (copied : copyGiven name = some copy) :
    Reads copy name ↔ ∀ text, given name = some text → text.bytes.length < intMax := by
  unfold copyGiven at copied
  cases present : given name with
  | none =>
    rw [present] at copied
    obtain rfl := Option.some.inj copied
    simp [Reads, present]
  | some text =>
    rw [present] at copied
    obtain ⟨buffer, whole, rfl⟩ := Option.map_eq_some_iff.mp copied
    simp only [Reads, present, Option.map_some, Option.some.injEq, forall_eq']
    exact newCopy_whole_iff text.plain whole

/-- A copy exists exactly when the argument is given. -/
theorem copyGiven_isSome {name : Option CText} {copy : Option Bytes}
    (copied : copyGiven name = some copy) : copy.isSome = (given name).isSome := by
  unfold copyGiven at copied
  cases present : given name with
  | none =>
    rw [present] at copied
    obtain rfl := Option.some.inj copied
    rfl
  | some text =>
    rw [present] at copied
    obtain ⟨buffer, -, rfl⟩ := Option.map_eq_some_iff.mp copied
    rfl

/-- Without the argument, only `NULL` reads as asked. -/
theorem reads_of_not_given {pointer : Option Bytes} {name : Option CText}
    (absent : given name = none) : Reads pointer name ↔ pointer = none := by
  simp [Reads, absent]

/-- After any history of calls, a `Bind` with a port hands to `mg_bind_opt` the certificate and
the key that it was asked for, if it gets that far, exactly when no options of earlier calls show
and the names are shorter than `INT_MAX`. -/
theorem bind_options_iff (history : List Call) (args : BindArgs) (env : BindEnv) :
    AsAsked (after history) args env ↔
      NotHanded args ∨ (Whole args ∧ Fresh (after history).bindOpts args) := by
  generalize after history = s
  by_cases unhanded : NotHanded args
  · simp only [unhanded, true_or, iff_true]
    intro opts handed
    rw [bind_unhanded env unhanded] at handed
    contradiction
  · obtain ⟨port, buffer, cert, key, portGiven, portCopied, certCopied, keyCopied⟩ :=
      copies_of_handed unhanded
    have certReads := reads_copy_iff certCopied
    have keyReads := reads_copy_iff keyCopied
    have certGiven := copyGiven_isSome certCopied
    have keyGiven := copyGiven_isSome keyCopied
    have asked : AsAsked s args env ↔
        Reads (storeKey (storeCert s.bindOpts cert) key).sslCert args.certName ∧
          Reads (storeKey (storeCert s.bindOpts cert) key).sslKey args.keyName := by
      have handed : (bind s args env).2.handed =
          some (storeKey (storeCert s.bindOpts cert) key) := by
        rw [bind_handed env portGiven, portCopied, certCopied, keyCopied]
        rfl
      simp only [AsAsked, handed, Option.some.injEq, forall_eq']
    have whole : Whole args ↔
        (∀ text, given args.certName = some text → text.bytes.length < intMax) ∧
          ∀ text, given args.keyName = some text → text.bytes.length < intMax := by
      simp only [Whole, or_imp, forall_and]
    rw [asked, whole, ← certReads, ← keyReads, Fresh, ← certGiven, ← keyGiven]
    simp only [unhanded, false_or]
    cases cert with
    | some certCopy =>
      cases key with
      | some keyCopy => simp [storeCert, storeKey]
      | none => simp [storeCert, storeKey]
    | none =>
      have noCert : given args.certName = none := by simpa using certGiven.symm
      cases key with
      | some keyCopy =>
        simp only [storeCert, storeKey, reads_of_not_given noCert, true_and, Option.isSome_some,
          true_or, and_true, Option.isSome_none, Bool.false_eq_true, false_or]
        exact and_comm
      | none =>
        have noKey : given args.keyName = none := by simpa using keyGiven.symm
        simp [storeCert, storeKey, reads_of_not_given noCert, reads_of_not_given noKey]

/-- A `Bind` with a certificate and a key. -/
def tlsArgs : BindArgs where
  port := some ⟨ascii "8443", by decide⟩
  certName := some ⟨ascii "cert.pem", by decide⟩
  keyName := some ⟨ascii "key.pem", by decide⟩

/-- A `Bind` without them. -/
def plainArgs : BindArgs := ⟨some ⟨ascii "8080", by decide⟩, none, none⟩

/-- After a `Bind` with a certificate and a `Close`, a `Bind` without one serves TLS with the
certificate and the key of the first call; as the first call of the program it does not. -/
theorem plainArgs_after_tls :
    ¬AsAsked (after [.bind tlsArgs {}, .close]) plainArgs {} ∧
      (bind (after [.bind tlsArgs {}, .close]) plainArgs {}).2.handed =
        some ⟨some (cString (ascii "cert.pem")), some (cString (ascii "key.pem"))⟩ ∧
      (bind (after []) plainArgs {}).2.handed = some {} := by
  have left : (bind (after [.bind tlsArgs {}, .close]) plainArgs {}).2.handed =
      some ⟨some (cString (ascii "cert.pem")), some (cString (ascii "key.pem"))⟩ := by
    decide +kernel
  refine ⟨fun asked => ?_, left, by decide +kernel⟩
  exact absurd ((reads_of_not_given rfl).mp (asked _ left).1) (by simp)

end CppCode.Interfaces
