import Detent.Source.Allowlist

/-!
# The modules of a build

`crates/detent-modules/src/lib.rs`: `modules` gives the modules a build was
compiled with, in registry order; a disabled feature leaves its module out. Of
the descriptors (`crates/modules/*/src/lib.rs`) only the ids and the target paths
are here; the rest of a descriptor is left open.
-/
namespace Detent.Source.Modules
open Source

/-- The id and the target paths of every module, in registry order. -/
def registry : List (String × List Path) :=
  [("hosts", ["/etc/hosts"]),
    ("resolver", ["/etc/resolv.conf", "/etc/systemd/resolved.conf", "/etc/systemd/resolved.conf.d",
      "/etc/systemd/resolved.conf.d/90-detent.conf", "/etc/unbound/unbound.conf"]),
    ("chrony", ["/etc/chrony/chrony.conf", "/etc/chrony.conf", "/etc/chrony/sources.d",
      "/etc/chrony/conf.d"]),
    ("mounts", ["/etc/fstab", "/etc/fstab.d"]),
    ("nfs", ["/etc/exports", "/etc/exports.d"]),
    ("samba", ["/etc/samba/smb.conf", "/etc/samba/smb.conf.d"]),
    ("dhcp", ["/etc/dnsmasq.conf", "/etc/dnsmasq.d", "/etc/kea/kea-dhcp4.conf",
      "/etc/kea/kea-dhcp6.conf"]),
    ("network", ["/etc/systemd/network", "/etc/NetworkManager/system-connections",
      "/etc/network/interfaces", "/etc/network/interfaces.d", "/etc/netplan",
      "/etc/systemd/network/10-detent.network",
      "/etc/NetworkManager/system-connections/detent.nmconnection", "/etc/netplan/90-detent.yaml"])]

/-- What the registry keeps of a descriptor. -/
def row (descriptor : ModuleDescriptor) : String × List Path :=
  (descriptor.id, descriptor.targets.map (·.path))

/-- The modules a build can be compiled with. -/
def Compiled (modules : List ModuleDescriptor) : Prop := (modules.map row).Sublist registry

end Detent.Source.Modules
