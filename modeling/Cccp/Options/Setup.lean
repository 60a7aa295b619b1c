import Cccp.Lib.Progress
import Cccp.Options.CryptoText
import Cccp.Options.Ports
import Cccp.Options.RoundTrip

/-!
# Setting up the two sides

From the options of the user `main` makes two clients, itself and a remote one or two remote
ones, which read their modes and options from the command line that `format_command` writes.
One of the two opens the control streams with `connect_stream`, as often as it takes, while
the other waits in `listen_stream`, which takes connections to an IPv4 address only.

`Joined` is what holds of the two at every step: they have the same streams, or the one that
connects is one stream ahead.  `streams_joined`: they never take one stream for another, and
they always get to the end of it, with the same streams, ciphers and ports.
-/

namespace Cccp

/-! ## The two clients -/

/-- `Mode`, with the modes of remote clients. -/
inductive ClientMode where
  | local
  | remote (sender : Bool)
  | controller
  deriving DecidableEq

/-- `Mode::from_str` -/
def ClientMode.fromStr (s : List Char) : Option ClientMode :=
  if s = "l".toList then some .local
  else if s = "rr".toList then some (.remote false)
  else if s = "rs".toList then some (.remote true)
  else if s = "c".toList then some .controller
  else none

/-- `SetupMode::from_str` -/
def SetupMode.fromStr (s : List Char) : Option SetupMode :=
  if s = "l".toList then some .listen
  else if s = "c".toList then some .connect
  else none

/-- `!` of a `SetupMode`. -/
def SetupMode.not : SetupMode → SetupMode
  | listen => .connect
  | connect => .listen

/-- The options that setting up uses. -/
structure Settings where
  startPort : UInt16
  controlCrypto : Crypto
  source : IoSpec
  destination : IoSpec
  deriving DecidableEq

def Options.settings (o : Options) : Settings :=
  ⟨o.startPort, o.controlCrypto.crypto, o.source, o.destination⟩

/-- A running client. -/
structure Client where
  mode : ClientMode
  setup : SetupMode
  settings : Settings
  deriving DecidableEq

/-- What a remote host reads its command line with. -/
structure RemoteHost where
  env : Environment
  keys : Generator
  ivs : Generator

section

variable {ε : Type} (crates : TextCrates ε) (classes : CharClasses)

namespace RemoteHost

variable (host : RemoteHost)

/-- A location on the command line; a word that begins with a dash is no location. -/
def readLocation (text : List Char) : Option IoSpec :=
  if text.head? = some '-' then none else (IoSpec.fromStr classes host.env text).toOption

/-- Each value that `format_command` writes is read by the parser of its type. -/
def read (o : Options) : Option Settings := do
  let startPort ← parsePort (decimal o.startPort.toNat)
  let controlCrypto ← (Crypto.fromStr crates host.keys host.ivs
    (o.controlCrypto.display crates.toFormats)).toOption
  let source ← host.readLocation classes o.source.display
  let destination ← host.readLocation classes o.destination.display
  return ⟨startPort, controlCrypto, source, destination⟩

end RemoteHost

/-- The remote client that the command of `format_command` starts, if the shell there reads it
as it is meant; `sender` is what the client at the other end is. -/
def remoteClient (host : RemoteHost) (o : Options) (sender : Bool) (mode : SetupMode) :
    Option Client :=
  if Shell.split (o.formatCommand crates.toFormats sender mode) =
      some (o.argv crates.toFormats sender mode) then do
    let told ← ClientMode.fromStr (if sender then "rr".toList else "rs".toList)
    let setup ← SetupMode.fromStr mode.display
    let settings ← host.read crates classes o
    return ⟨told, setup, settings⟩
  else none

/-- The two clients that `main` makes for its options, `setup` being its own setup mode. -/
def Options.clients (o : Options) (setup : SetupMode) (atSource atDestination : RemoteHost) :
    Mode → Option (Client × Client)
  | .local => do
      let sender := o.source.isLocal
      let host := if sender then atDestination else atSource
      let remote ← remoteClient crates classes host o sender setup.not
      return (⟨.local, setup, o.settings⟩, remote)
  | .controller => do
      let sender ← remoteClient crates classes atSource o false .connect
      let receiver ← remoteClient crates classes atDestination o true .listen
      return (sender, receiver)

/-- The address at which `main` starts the client that is to listen. -/
def Options.launchedAt (o : Options) : Mode → Option SocketAddr
  | .local => if o.source.isLocal then o.destination.host else o.source.host
  | .controller => o.destination.host

end

namespace Client

/-- The client calls `connect_stream`, not `listen_stream`. -/
def connects (client : Client) : Bool :=
  match client.mode, client.setup with
  | .local, _ => true
  | .remote _, .connect => true
  | .remote _, .listen => false
  | .controller, _ => false

/-- The host that is unwrapped to connect to it. -/
def remoteAddr (client : Client) : Option SocketAddr :=
  match client.mode with
  | .local =>
      if client.settings.source.isLocal then client.settings.destination.host
      else client.settings.source.host
  | _ => client.settings.destination.host

/-- The client calls `sender::main`, not `receiver::main`. -/
def sends (client : Client) : Bool :=
  match client.mode with
  | .local => client.settings.source.isLocal
  | .remote sender => sender
  | .controller => false

end Client

/-! ## The streams -/

namespace Setup

/-- The options that change while streams are opened, and the streams: the number of the
connection, and the cipher. -/
structure Party where
  port : UInt16
  crypto : Crypto
  streams : List (Nat × StreamCipher)

/-- `listener` is bound to a port, and `backlog` are the connections it has not accepted. -/
structure State where
  connector : Party
  listener : Party
  bound : Option (UInt16 × List Nat)
  connections : Nat

inductive Action where
  | connect
  | bind
  | accept

variable (checks : Bool) (stdRng : UInt64 → Generator) (crates : CipherCrates)
  (remoteAddr : Option SocketAddr)

/-- A connection becomes a `CipherStream`, or the client fails. -/
def Party.take (party : Party) (connection : Nat) : Option Party :=
  match party.crypto.makeCipher crates, addU16 checks party.port 1 with
  | .made cipher, .ok port =>
      (party.crypto.nextIv stdRng).map fun crypto =>
        ⟨port, crypto, party.streams ++ [(connection, cipher)]⟩
  | _, _ => none

/-- An attempt of `connect_stream`; it tries again where nothing listens.  `listen_stream`
binds to `0.0.0.0`, which no IPv6 address leads to, and without an address the `unwrap` has
panicked. -/
def connectStream (s : State) : Option State :=
  if s.connector.streams.length < 2 then
    match remoteAddr, s.bound with
    | none, _ => none
    | some (.v4 ..), some (port, backlog) =>
        if port = s.connector.port then
          (s.connector.take checks stdRng crates s.connections).map fun connector =>
            { s with
              connector := connector
              bound := some (port, backlog ++ [s.connections])
              connections := s.connections + 1 }
        else some s
    | some _, _ => some s
  else none

/-- `listen_stream` binds its listener and accepts one connection. -/
def listenStream (s : State) : Action → Option State
  | .bind =>
      match s.bound with
      | some _ => none
      | none =>
          if s.listener.streams.length < 2 then some { s with bound := some (s.listener.port, []) }
          else none
  | .accept =>
      match s.bound with
      | some (_, connection :: _) =>
          (s.listener.take checks stdRng crates connection).map fun listener =>
            { s with listener := listener, bound := none }
      | _ => none
  | .connect => none

def step (s : State) : Action → Option State
  | .connect => connectStream checks stdRng crates remoteAddr s
  | .bind => listenStream checks stdRng crates s .bind
  | .accept => listenStream checks stdRng crates s .accept

/-- Each client has its own options. -/
def initial (connector listener : Settings) : State where
  connector := ⟨connector.startPort, connector.controlCrypto, []⟩
  listener := ⟨listener.startPort, listener.controlCrypto, []⟩
  bound := none
  connections := 0

/-- The streams of a client that connects and one that listens. -/
def machine (connector listener : Client) : Machine State Action where
  init s := s = initial connector.settings listener.settings
  step := step checks stdRng crates connector.remoteAddr

/-! ## Joined streams -/

/-- The two have the same streams, or one of them has taken the next connection. -/
inductive Joined (s : State) : Prop
  | level (same : s.connector = s.listener)
      (bound : s.bound = none ∨ s.bound = some (s.listener.port, []))
  | ahead {connection : Nat}
      (next : s.listener.take checks stdRng crates connection = some s.connector)
      (bound : s.bound = some (s.listener.port, [connection]))

variable {checks stdRng crates} {remoteAddr : Option SocketAddr} {s s' : State} {party next : Party}
  {connection : Nat}

theorem take_cases (took : party.take checks stdRng crates connection = some next) :
    next.port = party.port + 1 ∧ party.crypto.nextIv stdRng = some next.crypto ∧
      ∃ cipher, next.streams = party.streams ++ [(connection, cipher)] := by
  unfold Party.take at took
  split at took
  next cipher port made added =>
    obtain ⟨crypto, derived, rfl⟩ := Option.map_eq_some_iff.mp took
    refine ⟨?_, derived, cipher, rfl⟩
    unfold addU16 at added
    split at added
    next => cases added
    next => exact (Except.ok.inj added).symm
  next => cases took

/-- The port after a connection is another one. -/
theorem port_ne_of_take (took : party.take checks stdRng crates connection = some next) :
    party.port ≠ next.port := by
  rw [(take_cases took).1]
  intro same
  have zero : party.port + 0 = party.port + 1 := (UInt16.add_zero _).trans same
  exact absurd (UInt16.add_right_inj _ |>.mp zero) (by decide)

/-- An attempt is in vain or makes a connection to the port that is listened on. -/
theorem connect_cases (stepped : connectStream checks stdRng crates remoteAddr s = some s') :
    s' = s ∨ ∃ backlog connector, s.connector.streams.length < 2 ∧
      s.bound = some (s.connector.port, backlog) ∧
      s.connector.take checks stdRng crates s.connections = some connector ∧
      s' = { s with
        connector := connector
        bound := some (s.connector.port, backlog ++ [s.connections])
        connections := s.connections + 1 } := by
  unfold connectStream at stepped
  split at stepped
  next few =>
    split at stepped
    next => cases stepped
    next port backlog bound =>
      split at stepped
      next here =>
        obtain ⟨connector, took, rfl⟩ := Option.map_eq_some_iff.mp stepped
        subst here
        exact .inr ⟨backlog, connector, few, bound, took, rfl⟩
      next =>
        cases stepped
        exact .inl rfl
    next =>
      cases stepped
      exact .inl rfl
  next => cases stepped

theorem joined_step {action : Action} (joined : Joined checks stdRng crates s)
    (stepped : step checks stdRng crates remoteAddr s action = some s') :
    Joined checks stdRng crates s' := by
  cases action with
  | connect =>
      rcases connect_cases stepped with rfl | ⟨backlog, connector, -, here, took, rfl⟩
      · exact joined
      · cases joined with
        | level same bound =>
            rcases bound with unbound | bound
            · cases unbound.symm.trans here
            · obtain ⟨port, rfl⟩ := Prod.mk.inj (Option.some.inj (bound.symm.trans here))
              refine .ahead (same ▸ took) ?_
              rw [← port]
              rfl
        | ahead next bound =>
            -- the next port is not the one that is listened on
            exact absurd (congrArg Prod.fst (Option.some.inj (bound.symm.trans here)))
              (port_ne_of_take next)
  | bind =>
      simp only [step, listenStream] at stepped
      split at stepped
      next => cases stepped
      next unbound =>
        split at stepped
        next =>
          cases stepped
          cases joined with
          | level same bound => exact .level same (.inr rfl)
          | ahead next bound => cases unbound.symm.trans bound
        next => cases stepped
  | accept =>
      simp only [step, listenStream] at stepped
      split at stepped
      next port connection rest bound =>
        obtain ⟨listener, accepted, rfl⟩ := Option.map_eq_some_iff.mp stepped
        cases joined with
        | level same free =>
            rcases free with unbound | idle
            · cases unbound.symm.trans bound
            · cases idle.symm.trans bound
        | ahead next waits =>
            cases waits.symm.trans bound
            exact .level (Option.some.inj (next.symm.trans accepted)) (.inl rfl)
      next => cases stepped

/-- The streams of the listener are the first of the connector's, and of the same number as
soon as there is one less to accept. -/
theorem Joined.prefix_ (joined : Joined checks stdRng crates s) :
    s.listener.streams <+: s.connector.streams ∧
      (s.connector.streams.length = s.listener.streams.length → s.connector = s.listener) := by
  cases joined with
  | level same bound =>
      rw [same]
      exact ⟨List.prefix_rfl, fun _ => rfl⟩
  | ahead next bound =>
      obtain ⟨cipher, streams⟩ := (take_cases next).2.2
      rw [streams]
      refine ⟨List.prefix_append _ _, fun same => ?_⟩
      rw [List.length_append, List.length_singleton] at same
      omega

/-! ## Getting to the end -/

/-- The streams can be taken: the key fits, and the ports do not run out. -/
structure Able (startPort : UInt16) (cipher : Cipher) (s : State) : Prop where
  fits : s.listener.crypto.Fits cipher
  few : s.connector.streams.length ≤ 2
  port : s.listener.port.toNat = startPort.toNat + s.listener.streams.length

variable {startPort : UInt16} {cipher : Cipher}

/-- A client that is able to take a connection takes it. -/
theorem take_next (fits : party.crypto.Fits cipher) (below : party.port.toNat + 1 < 2 ^ 16)
    (connection : Nat) : ∃ next, party.take checks stdRng crates connection = some next := by
  obtain ⟨made, is⟩ := fits.makeCipher crates
  have added : addU16 checks party.port 1 = .ok (party.port + 1) := addU16_eq below
  simp only [Party.take, is, added, fits.nextIv_eq, Option.map_some]
  exact ⟨_, rfl⟩

/-- The listener goes on to the next port and the next iv. -/
theorem Able.accept (able : Able startPort cipher s) (below : startPort.toNat + 2 < 2 ^ 16)
    (took : s.listener.take checks stdRng crates connection = some s.connector) :
    Able startPort cipher { s with listener := s.connector, bound := none } := by
  obtain ⟨port, derived, cipher', streams⟩ := take_cases took
  have few := able.few
  have length : s.connector.streams.length = s.listener.streams.length + 1 := by
    rw [streams, List.length_append, List.length_singleton]
  have fits : s.listener.port.toNat + (1 : UInt16).toNat < 2 ^ 16 := by
    rw [able.port]
    change _ + 1 < _
    omega
  refine ⟨able.fits.nextIv derived, few, ?_⟩
  change s.connector.port.toNat = startPort.toNat + s.connector.streams.length
  rw [port, toNat_add_of_fits fits, able.port, length]
  rfl

theorem able_step (below : startPort.toNat + 2 < 2 ^ 16) {action : Action}
    (able : Able startPort cipher s) (joined : Joined checks stdRng crates s)
    (stepped : step checks stdRng crates remoteAddr s action = some s') :
    Able startPort cipher s' := by
  cases action with
  | connect =>
      rcases connect_cases stepped with rfl | ⟨backlog, connector, some_, -, took, rfl⟩
      · exact able
      · obtain ⟨cipher, streams⟩ := (take_cases took).2.2
        refine ⟨able.fits, ?_, able.port⟩
        change connector.streams.length ≤ 2
        rw [streams, List.length_append, List.length_singleton]
        omega
  | bind =>
      simp only [step, listenStream] at stepped
      split at stepped
      next => cases stepped
      next =>
        split at stepped
        next =>
          cases stepped
          exact ⟨able.fits, able.few, able.port⟩
        next => cases stepped
  | accept =>
      simp only [step, listenStream] at stepped
      split at stepped
      next port connection rest bound =>
        obtain ⟨listener, accepted, rfl⟩ := Option.map_eq_some_iff.mp stepped
        cases joined with
        | level same free =>
            rcases free with unbound | idle
            · cases unbound.symm.trans bound
            · cases idle.symm.trans bound
        | ahead next waits =>
            cases waits.symm.trans bound
            obtain rfl := Option.some.inj (next.symm.trans accepted)
            exact able.accept below next
      next => cases stepped

/-- The two clients have the same port and key, and an IPv4 address leads from one to the
other. -/
structure Paired (startPort : UInt16) (crypto : Crypto) (connector listener : Client) : Prop where
  connector_eq : connector.settings.startPort = startPort ∧
    connector.settings.controlCrypto = crypto
  listener_eq : listener.settings.startPort = startPort ∧ listener.settings.controlCrypto = crypto
  address : ∃ ip port, connector.remoteAddr = some (.v4 ip port)

variable {crypto : Crypto} {connector listener : Client}

theorem reached_inv (paired : Paired startPort crypto connector listener)
    (fits : crypto.Fits cipher) (below : startPort.toNat + 2 < 2 ^ 16)
    (reached : (machine checks stdRng crates connector listener).Reachable s) :
    Joined checks stdRng crates s ∧ Able startPort cipher s := by
  induction reached with
  | init start =>
      subst start
      refine ⟨.level ?_ (.inl rfl), ?_, Nat.zero_le _, ?_⟩
      · rw [initial, paired.connector_eq.1, paired.connector_eq.2, paired.listener_eq.1,
          paired.listener_eq.2]
      · rwa [initial, paired.listener_eq.2]
      · rw [initial, paired.listener_eq.1]
        rfl
  | step _ _ stepped ih => exact ⟨joined_step ih.1 stepped, able_step below ih.2 ih.1 stepped⟩

/-- A connection that waits is accepted. -/
theorem accepts (next : s.listener.take checks stdRng crates connection = some s.connector)
    (bound : s.bound = some (s.listener.port, [connection])) :
    step checks stdRng crates remoteAddr s .accept =
      some { s with listener := s.connector, bound := none } := by
  simp only [step, listenStream, bound, next, Option.map_some]

/-- A connection is made to the port that is listened on. -/
theorem connects (address : ∃ ip port, remoteAddr = some (.v4 ip port))
    (same : s.connector = s.listener) (some_ : s.listener.streams.length < 2)
    (bound : s.bound = some (s.listener.port, []))
    (took : s.listener.take checks stdRng crates s.connections = some next) :
    step checks stdRng crates remoteAddr s .connect = some { s with
      connector := next
      bound := some (s.listener.port, [s.connections])
      connections := s.connections + 1 } := by
  obtain ⟨ip, port, rfl⟩ := address
  simp only [step, connectStream, bound, same, if_pos some_, took, Option.map_some, if_true]
  rfl

/-- From wherever the two are, the listener gets its next stream. -/
theorem next_stream (address : ∃ ip port, connector.remoteAddr = some (.v4 ip port))
    (below : startPort.toNat + 2 < 2 ^ 16)
    (joined : Joined checks stdRng crates s) (able : Able startPort cipher s)
    (some_ : s.listener.streams.length < 2) :
    ∃ t, (machine checks stdRng crates connector listener).Reaches (fun _ _ => True) s t ∧
      t.listener.streams.length = s.listener.streams.length + 1 := by
  have room : s.listener.port.toNat + 1 < 2 ^ 16 := by
    rw [able.port]
    omega
  -- the two are level, and the listener is bound
  have listening : ∀ s : State, s.connector = s.listener → s.bound = some (s.listener.port, []) →
      s.listener.streams.length < 2 → s.listener.crypto.Fits cipher →
        s.listener.port.toNat + 1 < 2 ^ 16 →
          ∃ t, (machine checks stdRng crates connector listener).Reaches (fun _ _ => True) s t ∧
            t.listener.streams.length = s.listener.streams.length + 1 := by
    intro s same bound some_ fits room
    obtain ⟨next, took⟩ := @take_next checks stdRng crates s.listener cipher fits room s.connections
    have first := connects address same some_ bound took
    have second : step checks stdRng crates connector.remoteAddr { s with
        connector := next
        bound := some (s.listener.port, [s.connections])
        connections := s.connections + 1 } .accept = _ := accepts took rfl
    obtain ⟨cipher, streams⟩ := (take_cases took).2.2
    refine ⟨_, .tail (.single ⟨.connect, trivial, first⟩) ⟨.accept, trivial, second⟩, ?_⟩
    change next.streams.length = _
    rw [streams, List.length_append, List.length_singleton]
  cases joined with
  | level same bound =>
      rcases bound with unbound | bound
      · have binds : step checks stdRng crates connector.remoteAddr s .bind =
            some { s with bound := some (s.listener.port, []) } := by
          simp only [step, listenStream, unbound, if_pos some_]
        obtain ⟨t, reaches, longer⟩ := listening { s with bound := some (s.listener.port, []) }
          same rfl some_ able.fits room
        exact ⟨t, .head ⟨.bind, trivial, binds⟩ reaches, longer⟩
      · exact listening s same bound some_ able.fits room
  | ahead next bound =>
      obtain ⟨cipher, streams⟩ := (take_cases next).2.2
      have accepted : step checks stdRng crates connector.remoteAddr s .accept = _ :=
        accepts next bound
      refine ⟨_, .single (a := .accept) trivial accepted, ?_⟩
      change s.connector.streams.length = _
      rw [streams, List.length_append, List.length_singleton]

/-! ## Launching -/

section

variable {ε : Type} {texts : TextCrates ε} {classes : CharClasses} {host : RemoteHost} {o : Options}

/-- A location that the remote reads again, a word that is not taken for an option. -/
structure Readable (classes : CharClasses) (x : IoSpec) : Prop where
  survivable : x.Survivable classes
  file : x.filePath ≠ [] ∧ '\n' ∉ x.filePath
  dash : x.username.head? ≠ some '-'

theorem Readable.readAgain {env : Environment} {x : IoSpec} (readable : Readable classes x)
    (loops : IoSpec.LocalhostLoops env) : x.ReadAgain classes env := by
  obtain ⟨nonempty, all, hosted⟩ := readable.survivable
  obtain ⟨file, lines⟩ := readable.file
  cases host : x.host with
  | none =>
      rw [host] at hosted
      exact IoSpec.readAgain_of_none loops file lines nonempty all host hosted
  | some host' =>
      rw [host] at hosted
      cases host' with
      | v4 _ _ => exact IoSpec.readAgain_of_v4 file lines nonempty all host
      | v6 _ _ _ _ => exact hosted.elim

/-- Only an IPv4 host survives. -/
theorem Readable.exists_v4 {x : IoSpec} (readable : Readable classes x)
    (away : x.isLocal = false) : ∃ ip port, x.host = some (.v4 ip port) := by
  have hosted := readable.survivable.2.2
  cases host : x.host with
  | none =>
      rw [IoSpec.isLocal, host] at away
      cases away
  | some host' =>
      rw [host] at hosted
      cases host' with
      | v4 ip port => exact ⟨ip, port, rfl⟩
      | v6 _ _ _ _ => exact hosted.elim

theorem Readable.readLocation {x : IoSpec} (readable : Readable classes x)
    (loops : IoSpec.LocalhostLoops host.env) :
    ∃ y, host.readLocation classes x.display = some y ∧ (x.isLocal = false → y.host = x.host) := by
  obtain ⟨y, read, -, -, same⟩ := readable.readAgain loops
  refine ⟨y, ?_, fun away => ?_⟩
  · have nonempty := readable.survivable.1
    have dash : x.display.head? ≠ some '-' := by
      obtain ⟨c, rest, user⟩ := List.exists_cons_of_ne_nil nonempty
      have dash := readable.dash
      rw [user] at dash
      rw [IoSpec.display, user]
      exact dash
    rw [RemoteHost.readLocation, if_neg dash, read]
    rfl
  · obtain ⟨ip, port, there⟩ := readable.exists_v4 away
    rcases same with same | ⟨none_, -⟩
    · exact same
    · cases none_.symm.trans there

/-- What a launch asks of the options and of the resolver of a remote host. -/
structure Launchable (classes : CharClasses) (cipher : Cipher) (o : Options) : Prop where
  fits : o.controlCrypto.crypto.Fits cipher
  command : Shell.Inert o.command
  locations : Shell.Inert o.source.display ∧ Shell.Inert o.destination.display
  source : Readable classes o.source
  destination : Readable classes o.destination

/-- The remote client has the modes it is told, and the port, the key and the hosts of the
user. -/
theorem exists_remoteClient (launchable : Launchable classes cipher o)
    (loops : IoSpec.LocalhostLoops host.env) (sender : Bool) (mode : SetupMode) :
    ∃ client, remoteClient texts classes host o sender mode = some client ∧
      client.mode = .remote (!sender) ∧ client.setup = mode ∧
      client.settings.startPort = o.startPort ∧
      client.settings.controlCrypto = o.controlCrypto.crypto ∧
      (o.destination.isLocal = false →
        client.settings.destination.host = o.destination.host) := by
  obtain ⟨source, readSource, -⟩ := launchable.source.readLocation loops
  obtain ⟨destination, readDestination, same⟩ := launchable.destination.readLocation loops
  have split : Shell.split (o.formatCommand texts.toFormats sender mode) =
      some (o.argv texts.toFormats sender mode) := by
    have nonempty : o.arguments texts.toFormats sender mode ≠ [] := List.cons_ne_nil _ _
    rw [Options.formatCommand_eq_render, Options.argv,
      Shell.split_render_iff nonempty Options.wellFormed_arguments, Options.kept_arguments]
    exact ⟨launchable.command, launchable.locations⟩
  have crypto : (Crypto.fromStr texts host.keys host.ivs
      (o.controlCrypto.display texts.toFormats)).toOption = some o.controlCrypto.crypto := by
    have shown := Crypto.display_parsed texts.toFormats o.controlCrypto
    rw [launchable.fits.display_eq] at shown
    rw [← Option.some.inj shown, launchable.fits.fromStr_display]
    rfl
  have settings : host.read texts classes o =
      some ⟨o.startPort, o.controlCrypto.crypto, source, destination⟩ := by
    simp only [RemoteHost.read, parsePort_decimal, crypto, readSource, readDestination,
      Option.bind_eq_bind, Option.bind_some, pure]
  refine ⟨⟨.remote (!sender), mode, ⟨o.startPort, o.controlCrypto.crypto, source, destination⟩⟩,
    ?_, rfl, rfl, rfl, rfl, same⟩
  rw [remoteClient, if_pos split, settings]
  cases sender <;> cases mode <;>
    simp [ClientMode.fromStr, SetupMode.fromStr, SetupMode.display]

/-- Which of the locations are local in each mode. -/
theorem away_of_validate {mode : Mode} {given : Options}
    (validated : given.validate checks = .ok (mode, o)) :
    match mode with
    | .local => o.destination.isLocal = !o.source.isLocal
    | .controller => o.source.isLocal = false ∧ o.destination.isLocal = false := by
  unfold Options.validate at validated
  obtain ⟨fitted, -, chosen⟩ := IoSpec.bind_eq_ok validated
  split at chosen
  next => cases chosen
  next both =>
    split at chosen
    next neither =>
      cases chosen
      simpa using neither
    next some_ =>
      cases chosen
      cases source : o.source.isLocal <;> cases destination : o.destination.isLocal <;>
        simp_all

/-- With its default setup mode `main` makes one client that connects and one that listens,
and one of the two sends.  The one connects to where the other was started. -/
theorem exists_clients {mode : Mode} {given : Options} {atSource atDestination : RemoteHost}
    (validated : given.validate checks = .ok (mode, o))
    (launchable : Launchable classes cipher o) (loops : IoSpec.LocalhostLoops atSource.env)
    (loops' : IoSpec.LocalhostLoops atDestination.env) :
    ∃ first second,
      o.clients texts classes .connect atSource atDestination mode = some (first, second) ∧
        first.connects = true ∧ second.connects = false ∧ second.sends = !first.sends ∧
        first.remoteAddr = o.launchedAt mode ∧
        Paired o.startPort o.controlCrypto.crypto first second := by
  have away := away_of_validate validated
  cases mode with
  | «local» =>
      have loops'' : IoSpec.LocalhostLoops
          (if o.source.isLocal then atDestination else atSource).env := by
        split
        next => exact loops'
        next => exact loops
      obtain ⟨remote, made, remoteMode, setup, port, crypto, -⟩ :=
        @exists_remoteClient _ _ texts _ _ _ launchable loops'' o.source.isLocal .listen
      refine ⟨⟨.local, .connect, o.settings⟩, remote, ?_, rfl, ?_, ?_, rfl,
        ⟨⟨rfl, rfl⟩, ⟨port, crypto⟩, ?_⟩⟩
      · simp only [Options.clients, SetupMode.not, made, Option.bind_eq_bind, Option.bind_some, pure]
      · rw [Client.connects, remoteMode, setup]
      · rw [Client.sends, remoteMode]
        rfl
      · cases sender : o.source.isLocal with
        | true =>
            rw [sender] at away
            obtain ⟨ip, port, there⟩ := launchable.destination.exists_v4 away
            refine ⟨ip, port, ?_⟩
            simp only [Client.remoteAddr, Options.settings, sender, if_true, there]
        | false =>
            obtain ⟨ip, port, there⟩ := launchable.source.exists_v4 sender
            refine ⟨ip, port, ?_⟩
            simp only [Client.remoteAddr, Options.settings, sender, Bool.false_eq_true, if_false,
              there]
  | controller =>
      obtain ⟨sender, made, senderMode, setup, port, crypto, same⟩ :=
        @exists_remoteClient _ _ texts _ _ _ launchable loops false .connect
      obtain ⟨receiver, made', receiverMode, setup', port', crypto', -⟩ :=
        @exists_remoteClient _ _ texts _ _ _ launchable loops' true .listen
      refine ⟨sender, receiver, ?_, ?_, ?_, ?_, ?_, ⟨⟨port, crypto⟩, ⟨port', crypto'⟩, ?_⟩⟩
      · simp only [Options.clients, made, made', Option.bind_eq_bind, Option.bind_some, pure]
      · rw [Client.connects, senderMode, setup]
      · rw [Client.connects, receiverMode, setup']
      · rw [Client.sends, Client.sends, senderMode, receiverMode]
        rfl
      · rw [Client.remoteAddr, senderMode, same away.2]
        rfl
      · obtain ⟨ip, port, there⟩ := launchable.destination.exists_v4 away.2
        refine ⟨ip, port, ?_⟩
        rw [Client.remoteAddr, senderMode, same away.2, there]

end

/-- The validation leaves two ports for the streams. -/
theorem ports_of_validate {o : Options} {mode : Mode} {given : Options}
    (validated : given.validate checks = .ok (mode, o)) : o.startPort.toNat + 2 < 2 ^ 16 := by
  have fits : given.fitPorts checks = .ok o := by
    cases fits : given.fitPorts checks with
    | error stop =>
        rw [Options.validate, fits] at validated
        cases validated
    | ok fitted =>
        rw [Options.validate, fits] at validated
        simp only [bind, Except.bind] at validated
        split at validated
        next => cases validated
        next =>
          split at validated
          next =>
            cases validated
            rfl
          next =>
            cases validated
            rfl
  have bound := given.endPort.toNat_lt
  rcases Options.fitPorts_cases checks given with ⟨message, refused⟩ | ⟨first, last, overflows⟩ |
    ⟨enough, few, fitted, same, fitting⟩
  · cases refused.symm.trans fits
  · cases overflows.symm.trans fits
  · cases same.symm.trans fits
    cases fitting with
    | fewer less threads all =>
        dsimp only
        omega
    | more less newEnd some_ =>
        dsimp only
        omega
    | same equal => omega

/-- **The right streams are joined.**  Whatever options `main` accepts, if the shell and the
parsers of the remote hosts read them as they are meant: with the default setup mode one of the
two clients it makes connects, to where it has started the other one, which listens, and one of
them sends.  In every order of their attempts, the streams the listener has are the first of those the connector has: the
same connections with the same ciphers.  When both have two streams, they have the same ports
left and the same key for the next.  And from wherever they are, some steps lead there. -/
theorem streams_joined {ε : Type} {texts : TextCrates ε} {classes : CharClasses} {o : Options}
    {mode : Mode} {given : Options} {atSource atDestination : RemoteHost}
    (validated : given.validate checks = .ok (mode, o))
    (launchable : Launchable classes cipher o) (loops : IoSpec.LocalhostLoops atSource.env)
    (loops' : IoSpec.LocalhostLoops atDestination.env) :
    ∃ first second,
      o.clients texts classes .connect atSource atDestination mode = some (first, second) ∧
      first.connects = true ∧ second.connects = false ∧ second.sends = !first.sends ∧
      first.remoteAddr = o.launchedAt mode ∧
      ∀ s, (machine checks stdRng crates first second).Reachable s →
        s.listener.streams <+: s.connector.streams ∧
        (s.listener.streams.length = 2 → s.connector = s.listener ∧
          s.listener.port.toNat = o.startPort.toNat + 2) ∧
        ∃ t, (machine checks stdRng crates first second).Reaches (fun _ _ => True) s t ∧
          t.listener.streams.length = 2 := by
  have below := ports_of_validate validated
  obtain ⟨first, second, made, connects, listens, sends, address, paired⟩ :=
    @exists_clients checks cipher _ texts classes o mode given _ _ validated launchable loops loops'
  refine ⟨first, second, made, connects, listens, sends, address, fun s reached => ?_⟩
  obtain ⟨joined, able⟩ := reached_inv paired launchable.fits below reached
  obtain ⟨front, level⟩ := joined.prefix_
  refine ⟨front, fun both => ?_, ?_⟩
  · have few := able.few
    have longer := front.length_le
    have port := able.port
    refine ⟨level (by omega), by rw [port, both]⟩
  · have advances : ∀ t, Joined checks stdRng crates t ∧ Able o.startPort cipher t →
        ¬ t.listener.streams.length = 2 →
          ∃ u, (machine checks stdRng crates first second).Reaches (fun _ _ => True) t u ∧
            (Joined checks stdRng crates u ∧ Able o.startPort cipher u) ∧
              2 - u.listener.streams.length < 2 - t.listener.streams.length := by
      rintro t ⟨joined, able⟩ unfinished
      have few := able.few
      have longer := joined.prefix_.1.length_le
      obtain ⟨u, reaches, more⟩ := next_stream paired.address below joined able (by omega)
      refine ⟨u, reaches, ?_, by omega⟩
      refine @Machine.Reaches.keeps _ _ _ _ _ _ (fun s => Joined checks stdRng crates s ∧
        Able o.startPort cipher s) ?_ reaches ⟨joined, able⟩
      rintro s action s' ⟨joined, able⟩ - stepped
      exact ⟨joined_step joined stepped, able_step below able joined stepped⟩
    obtain ⟨t, reaches, -, both⟩ := Machine.reaches_goal _
      (fun s : State => 2 - s.listener.streams.length) advances
      (And.intro joined able)
    exact ⟨t, reaches, both⟩

/-- The connector is refused at first, and one stream ahead in the end. -/
def oneAhead : List Action := [.connect, .bind, .connect, .connect]

def zeros : Generator := ⟨fun count => List.replicate count 0, fun _ => List.length_replicate⟩

/-- A file of the user for a host elsewhere. -/
def elsewhere : Options :=
  { Options.defaultPorts 8 with source := ⟨"b".toList, none, "u".toList⟩ }

/-- A host whose user has another name, and which draws zeros. -/
def otherHost : RemoteHost := ⟨hostOfUser "v".toList, zeros, zeros⟩

theorem launchable_elsewhere : Launchable asciiClasses .none elsewhere where
  fits := ⟨rfl, rfl, rfl⟩
  command := Shell.inert_of_all (by decide)
  locations := ⟨Shell.inert_of_all (by decide +kernel), Shell.inert_of_all (by decide +kernel)⟩
  source :=
    ⟨⟨List.cons_ne_nil _ _, List.forall_mem_singleton.mpr rfl, fun port => port.1 (by decide)⟩,
      by decide, by decide⟩
  destination :=
    ⟨⟨List.cons_ne_nil _ _, List.forall_mem_singleton.mpr rfl, trivial⟩, by decide, by decide⟩

/-- The client of the user and the one it launches. -/
def elsewhereClients : Client × Client :=
  (⟨.local, .connect, elsewhere.settings⟩,
    ⟨.remote false, .listen, { elsewhere.settings with
      source := ⟨"b".toList, some (.v4 ⟨127, 0, 0, 1⟩ 22), "u".toList⟩ }⟩)

/-- The second stream is joined, too. -/
theorem streams_joined_oneAhead :
    let M := machine true (fun _ => zeros) ⟨fun _ _ _ _ => 0, fun _ => none⟩
      elsewhereClients.1 elsewhereClients.2
    ∃ s t, M.Reachable s ∧ s.listener.streams = [] ∧ s.connector.streams.length = 1 ∧
      M.Reaches (fun _ _ => True) s t ∧ t.listener.streams.length = 2 := by
  intro M
  obtain ⟨s, reached, lengths⟩ := @Machine.reachable_of_test _ _ M _ rfl oneAhead
    (fun s => s.listener.streams.isEmpty && decide (s.connector.streams.length = 1))
    (by decide +kernel)
  obtain ⟨empty, one⟩ := Bool.and_eq_true_iff.mp lengths
  have loops : IoSpec.LocalhostLoops otherHost.env := fun port => ⟨_, [], rfl, rfl⟩
  have clients : elsewhere.clients asciiTexts asciiClasses .connect otherHost otherHost .local =
      some elsewhereClients := by
    decide +kernel
  obtain ⟨first, second, made, -, -, -, -, joined⟩ := @streams_joined true (fun _ => zeros)
    ⟨fun _ _ _ _ => 0, fun _ => none⟩ .none _ asciiTexts asciiClasses elsewhere .local elsewhere
    otherHost otherHost rfl launchable_elsewhere loops loops
  cases made.symm.trans clients
  obtain ⟨-, -, t, reaches, both⟩ := joined s reached
  exact ⟨s, t, reached, List.isEmpty_iff.mp empty, of_decide_eq_true one, reaches, both⟩

end Setup

end Cccp
