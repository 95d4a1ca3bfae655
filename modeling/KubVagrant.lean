import KubVagrant.Lib.Lines
import KubVagrant.Lib.Words
import KubVagrant.Lib.Regex
import KubVagrant.Lib.Search
import KubVagrant.Lib.Glob
import KubVagrant.Lib.Shell
import KubVagrant.Lib.IPv4
import KubVagrant.Lib.Path
import KubVagrant.Lib.KeyedStore
import KubVagrant.Lib.SharedFile
import KubVagrant.Lib.SerialRuns
import KubVagrant.Lib.Components
import KubVagrant.Lib.Relational
import KubVagrant.Lib.Python
import KubVagrant.Lib.Hierarchy
import KubVagrant.Lib.Worklist
import KubVagrant.Lib.Loops
import KubVagrant.InstallCommon
import KubVagrant.InsertData
import KubVagrant.Inventory
import KubVagrant.Tables
import KubVagrant.Inv2Prop
import KubVagrant.Ansible.InventoryData
import KubVagrant.Ansible.Consistent
import KubVagrant.Ansible.Reconcile
import KubVagrant.Ansible.Variables
import KubVagrant.Ansible.Script
import KubVagrant.Ansible.FromProperties
import KubVagrant.Ansible.LineInFile
import KubVagrant.Ansible.Patterns
import KubVagrant.Ansible.Manager
import KubVagrant.Ansible.Targets
import KubVagrant.Central
import KubVagrant.CentralStore
import KubVagrant.Requests
import KubVagrant.Collect
import KubVagrant.Volumes
import KubVagrant.Report
import KubVagrant.Fleet
import KubVagrant.MyCnf
