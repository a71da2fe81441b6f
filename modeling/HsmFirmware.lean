-- SUMMARY: Root of the HSM firmware development.
import HsmFirmware.Library.Prog
import HsmFirmware.Library.Machine
import HsmFirmware.Library.Codec
import HsmFirmware.Library.NorFlash
import HsmFirmware.Library.Network
import HsmFirmware.Library.Timeouts
import HsmFirmware.Library.Faults
import HsmFirmware.Library.Polling
import HsmFirmware.Library.RingBuffer
import HsmFirmware.Library.Sha256
import HsmFirmware.Library.Statics
import HsmFirmware.Library.Hmac
import HsmFirmware.Device.Types
import HsmFirmware.Device.Dev
import HsmFirmware.Firmware.SimpleFlash
import HsmFirmware.Firmware.SecureCrypto
import HsmFirmware.Firmware.SecureDesign
import HsmFirmware.Firmware.Secrets
import HsmFirmware.Firmware.Security
import HsmFirmware.Firmware.SecureBlobStore
import HsmFirmware.Firmware.Commands
import HsmFirmware.Firmware.Main
import HsmFirmware.Firmware.HostMessaging
import HsmFirmware.Firmware.Trng
import HsmFirmware.Specs.Flash
import HsmFirmware.Specs.FlashWords
import HsmFirmware.Specs.Pages
import HsmFirmware.Specs.Record
import HsmFirmware.Specs.Opening
import HsmFirmware.Specs.Store
import HsmFirmware.Specs.Images
import HsmFirmware.Specs.Deletion
import HsmFirmware.Specs.Reboot
import HsmFirmware.Specs.PowerLoss
import HsmFirmware.Specs.PartialRecord
import HsmFirmware.Specs.Gate
import HsmFirmware.Specs.PinState
import HsmFirmware.Specs.PinWords
import HsmFirmware.Specs.Read
import HsmFirmware.Firmware.Sha256Raw
import HsmFirmware.Specs.Sha256
import HsmFirmware.Firmware.Scratch
import HsmFirmware.Firmware.CryptoScratch
import HsmFirmware.Library.Notes
import HsmFirmware.Specs.Encryptions
import HsmFirmware.Specs.Scratch
import HsmFirmware.Specs.CryptoScratch
import HsmFirmware.Properties.Hashing
import HsmFirmware.Properties.ScratchHygiene
import HsmFirmware.Properties.Permissions
import HsmFirmware.Properties.NonceReuse
import HsmFirmware.Properties.DomainSeparation
import HsmFirmware.Specs.FileCommands
import HsmFirmware.Specs.Transfer
import HsmFirmware.Specs.Receive
import HsmFirmware.Specs.Listen
import HsmFirmware.Firmware.Release
import HsmFirmware.Properties.InstalledPin
import HsmFirmware.Properties.PinSurvival
import HsmFirmware.Properties.FailedStore
import HsmFirmware.Properties.Layout
import HsmFirmware.Properties.WriteRead
import HsmFirmware.Properties.StaleBytes
import HsmFirmware.Properties.Peer
import HsmFirmware.Properties.Disclosure
import HsmFirmware.Specs.Keeps
import HsmFirmware.Properties.PinRequired
import HsmFirmware.Specs.Link
import HsmFirmware.Specs.Input
import HsmFirmware.Specs.Dialogue
import HsmFirmware.Specs.Denial
import HsmFirmware.Specs.Exchange
import HsmFirmware.Specs.Outcomes
import HsmFirmware.Properties.Framing
import HsmFirmware.Properties.Exchange
import HsmFirmware.Properties.Sync
import HsmFirmware.Properties.DeniedTransfer
import HsmFirmware.Properties.CommandBuffer
import HsmFirmware.Properties.Neighbours
import HsmFirmware.Properties.ReplayWindow
import HsmFirmware.Properties.FailureCount
import HsmFirmware.Properties.FlashWrite
import HsmFirmware.Properties.NonceTermination
import HsmFirmware.Firmware.SimpleUart
import HsmFirmware.Properties.PacketTimeout
import HsmFirmware.Properties.HexPackets
import HsmFirmware.Specs.Streaming
import HsmFirmware.Properties.Streaming
import HsmFirmware.Properties.FailedReads
import HsmFirmware.Properties.RecordAuthenticity
import HsmFirmware.Properties.PinChange
import HsmFirmware.Library.Service
import HsmFirmware.Specs.FileMap
import HsmFirmware.Properties.FileMap
import HsmFirmware.Library.History
import HsmFirmware.Library.Sessions
import HsmFirmware.Specs.Roles
import HsmFirmware.Properties.Agreement
import HsmFirmware.Specs.HonestWire
import HsmFirmware.Properties.ListAgreement
import HsmFirmware.Library.Recovery
import HsmFirmware.Specs.PinFrame
import HsmFirmware.Specs.Groups
import HsmFirmware.Specs.Released
import HsmFirmware.Properties.GroupRelease
import HsmFirmware.Properties.CrossGroup
import HsmFirmware.Properties.SlotAtomicity
