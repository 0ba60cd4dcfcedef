import RoundRobin.Frame

/-!
# RoundRobin.Config — the checks on the configuration

`src/config.rs`: `validate` of both sides, with the texts of its errors, and the default values it is
run on.  Addresses and ports of listeners, which no check reads, are left out.
-/

namespace RoundRobin

/-- The port numbers of a tunnel entry: its own, and its proxy's. -/
structure TunnelConfig where
  port : ℕ
  proxyPort : ℕ
  deriving DecidableEq, Repr

structure SplitterConfig where
  chunkSize : ℕ
  tunnel : List TunnelConfig
  dataSendTimeoutSecs : ℕ
  heartbeatSecs : ℕ
  reorderWindowBytes : ℕ
  deriving DecidableEq, Repr

structure ReassemblerConfig where
  chunkSize : ℕ
  dataSendTimeoutSecs : ℕ
  heartbeatSecs : ℕ
  reorderWindowBytes : ℕ
  deriving DecidableEq, Repr

def defaultChunk : ℕ := 65535
def defaultDataSendTimeout : ℕ := 30
def defaultHeartbeat : ℕ := 60
def defaultReorderWindow : ℕ := 64 * 1024 * 1024

def validateChunk (side : String) (chunkSize : ℕ) : Except String Unit :=
  if chunkSize < minChunk ∨ maxChunk < chunkSize then
    .error s!"{side}.chunk_size must be {minChunk}..{maxChunk}"
  else .ok ()

def validateSecs (name : String) (secs : ℕ) : Except String Unit :=
  if secs = 0 then .error s!"{name} must be >= 1 second, got 0" else .ok ()

def validateReorderWindow (name : String) (bytes chunkSize : ℕ) : Except String Unit :=
  if bytes < chunkSize then
    .error s!"{name} must be >= chunk_size ({chunkSize} bytes), got {bytes}"
  else if bytes > 1024 * 1024 * 1024 then .error s!"{name} must be <= 1 GiB, got {bytes}"
  else .ok ()

/-- The checks both sides make on the values they share. -/
def validateShared (side : String) (chunkSize timeout heartbeat window : ℕ) : Except String Unit := do
  validateChunk side chunkSize
  validateSecs (side ++ ".data_send_timeout_secs") timeout
  validateSecs (side ++ ".heartbeat_secs") heartbeat
  validateReorderWindow (side ++ ".reorder_window_bytes") window chunkSize

namespace SplitterConfig

/-- The defaults, for the tunnels of an entry. -/
def withDefaults (tunnel : List TunnelConfig) : SplitterConfig :=
  ⟨defaultChunk, tunnel, defaultDataSendTimeout, defaultHeartbeat, defaultReorderWindow⟩

def validate (c : SplitterConfig) : Except String Unit := do
  validateShared "splitter" c.chunkSize c.dataSendTimeoutSecs c.heartbeatSecs c.reorderWindowBytes
  if c.tunnel.any fun t => t.port = 0 then .error "splitter.tunnel port must not be 0"
  else if c.tunnel.any fun t => t.proxyPort = 0 then
    .error "splitter.tunnel proxy port must not be 0"
  else .ok ()

end SplitterConfig

namespace ReassemblerConfig

def withDefaults : ReassemblerConfig :=
  ⟨defaultChunk, defaultDataSendTimeout, defaultHeartbeat, defaultReorderWindow⟩

def validate (c : ReassemblerConfig) : Except String Unit :=
  validateShared "reassembler" c.chunkSize c.dataSendTimeoutSecs c.heartbeatSecs c.reorderWindowBytes

end ReassemblerConfig

/-! ## What an accepted configuration promises -/

/-- The values both sides check, within their bounds. -/
structure Checked (chunkSize timeout heartbeat window : ℕ) : Prop where
  chunk_ge : minChunk ≤ chunkSize
  chunk_le : chunkSize ≤ maxChunk
  timeout_pos : 0 < timeout
  heartbeat_pos : 0 < heartbeat
  window_ge : chunkSize ≤ window
  window_le : window ≤ 1024 * 1024 * 1024

theorem validateShared_ok_iff {side : String} {chunkSize timeout heartbeat window : ℕ} :
    validateShared side chunkSize timeout heartbeat window = .ok () ↔
      Checked chunkSize timeout heartbeat window := by
  constructor
  · intro h
    simp only [validateShared, validateChunk, validateSecs, validateReorderWindow] at h
    split_ifs at h
    all_goals try cases h
    exact ⟨by omega, by omega, by omega, by omega, by omega, by omega⟩
  · intro h
    obtain ⟨h1, h2, h3, h4, h5, h6⟩ := h
    simp only [validateShared, validateChunk, validateSecs, validateReorderWindow]
    rw [if_neg (by omega), if_neg (by omega), if_neg (by omega), if_neg (by omega), if_neg (by omega)]
    rfl

theorem SplitterConfig.checked {c : SplitterConfig} (h : c.validate = .ok ()) :
    Checked c.chunkSize c.dataSendTimeoutSecs c.heartbeatSecs c.reorderWindowBytes := by
  unfold validate at h
  cases hs : validateShared "splitter" c.chunkSize c.dataSendTimeoutSecs c.heartbeatSecs
      c.reorderWindowBytes with
  | error e =>
    rw [hs] at h
    cases h
  | ok u => exact validateShared_ok_iff.mp hs

theorem ReassemblerConfig.checked {c : ReassemblerConfig} (h : c.validate = .ok ()) :
    Checked c.chunkSize c.dataSendTimeoutSecs c.heartbeatSecs c.reorderWindowBytes :=
  validateShared_ok_iff.mp h

/-- The defaults pass. -/
theorem ReassemblerConfig.validate_withDefaults : withDefaults.validate = .ok () := rfl

theorem SplitterConfig.validate_withDefaults {tunnel : List TunnelConfig}
    (h : ∀ t ∈ tunnel, t.port ≠ 0 ∧ t.proxyPort ≠ 0) :
    (withDefaults tunnel).validate = .ok () := by
  have hport : (tunnel.any fun t => t.port = 0) = false := by
    simpa using fun t ht => (h t ht).1
  have hproxy : (tunnel.any fun t => t.proxyPort = 0) = false := by
    simpa using fun t ht => (h t ht).2
  show (if tunnel.any fun t => t.port = 0 then _ else if tunnel.any fun t => t.proxyPort = 0 then _
    else _) = _
  rw [hport, hproxy]
  rfl

end RoundRobin
